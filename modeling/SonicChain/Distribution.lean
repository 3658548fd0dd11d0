import SonicChain.Types
import SonicChain.GraphSearch

/-! # Distributing transactions to threads

`ConnectedComponents`: transactions and the keys of their access lists form a
bipartite graph of reference-counted cells; its components are found one by one
and dealt out, the largest that is left to the worker with the least.

A transaction's node is named by the position of the transaction in the pool, and
a key's node by its key, since `keys_map` has one for each.  Cells are borrowed
and released as `RefCell`s are.  A loop that may run on takes fuel.
-/

namespace SonicChain

/-! ## Nodes and cells -/

/-- A reference to a node. -/
inductive NodeRef where
  | tx (position : Nat)
  | key (key : Key)
  deriving DecidableEq

inductive NodeType where
  | tx (id : TransactionId)
  | key (key : Key)

structure Node where
  nodeType : NodeType
  /-- Points to keys if the node type is tx. -/
  keys : Option (List NodeRef)
  /-- Points to txs, weakly, if the node type is key. -/
  txs : Option (List NodeRef)
  /-- Id of the component to which this node belongs. -/
  component : Option UInt32

namespace Node

def newTx (tx : TransactionId) (keys : List NodeRef) : Node :=
  { nodeType := .tx tx, keys := some keys, txs := none, component := none }

def newKey (key : Key) (txs : List NodeRef) : Node :=
  { nodeType := .key key, txs := some txs, keys := none, component := none }

def isKeyNode (n : Node) : Bool :=
  match n.nodeType with
  | .key _ => true
  | .tx _ => false

def isTxNode (n : Node) : Bool :=
  match n.nodeType with
  | .tx _ => true
  | .key _ => false

def addKey (key : NodeRef) (n : Node) : Except Panic Node :=
  if n.isTxNode then
    match n.keys with
    | some keys => .ok { n with keys := some (keys ++ [key]) }
    | none => .error .unwrap
  else .error (.debugAssert "self.is_tx_node()")

def addTx (tx : NodeRef) (n : Node) : Except Panic Node :=
  if n.isKeyNode then
    match n.txs with
    | some txs => .ok { n with txs := some (txs ++ [tx]) }
    | none => .error .unwrap
  else .error (.debugAssert "self.is_key_node()")

def visit (id : UInt32) (n : Node) : Bool × Node :=
  match n.component with
  | none => (true, { n with component := some id })
  | some _ => (false, n)

end Node

/-- How a `RefCell` is borrowed: by so many readers, or by a writer. -/
inductive BorrowFlag where
  | reading (n : Nat)
  | writing

structure NodeCell where
  node : Node
  flag : BorrowFlag

/-- The cells that are alive. -/
abbrev Heap := NodeRef → Option NodeCell

def Heap.empty : Heap := fun _ => none

/-- Code over the heap, which may panic, or run out of fuel. -/
abbrev HeapM := StateT Heap (ExceptT Panic Option)

def outOfFuel {A : Type} : HeapM A := fun _ => none

/-- A panic, or the value. -/
def orPanicH {A : Type} : Except Panic A → HeapM A
  | .ok a => return a
  | .error why => throw why

/-- `Rc::from(RefCell::new(node))`. -/
def asRc (r : NodeRef) (node : Node) : HeapM Unit :=
  modify fun heap => Function.update heap r (some ⟨node, .reading 0⟩)

/-- `Weak::upgrade`, with the `unwrap` that follows it. -/
def upgrade (r : NodeRef) : HeapM NodeRef := do
  match (← get) r with
  | some _ => return r
  | none => throw .unwrap

def cell (r : NodeRef) : HeapM NodeCell := do
  match (← get) r with
  | some cell => return cell
  | none => throw .unwrap

def setCell (r : NodeRef) (cell : NodeCell) : HeapM Unit :=
  modify fun heap => Function.update heap r (some cell)

def borrow (r : NodeRef) : HeapM Node := do
  let cell ← cell r
  match cell.flag with
  | .reading n =>
    setCell r { cell with flag := .reading (n + 1) }
    return cell.node
  | .writing => throw (.message "already mutably borrowed: BorrowError")

def borrowMut (r : NodeRef) : HeapM Node := do
  let cell ← cell r
  match cell.flag with
  | .reading 0 =>
    setCell r { cell with flag := .writing }
    return cell.node
  | _ => throw (.message "already borrowed: BorrowMutError")

/-- Write through a mutable borrow. -/
def store (r : NodeRef) (node : Node) : HeapM Unit := do
  let cell ← cell r
  setCell r { cell with node }

/-- Drop a borrow. -/
def release (r : NodeRef) : HeapM Unit := do
  let cell ← cell r
  match cell.flag with
  | .reading n => setCell r { cell with flag := .reading (n - 1) }
  | .writing => setCell r { cell with flag := .reading 0 }

/-! ## Traversing the graph -/

/-- Push those of the transactions that have not been visited. -/
def pushTxs : List NodeRef → List NodeRef → HeapM (List NodeRef)
  | [], queue => return queue
  | txWeak :: txs, queue => do
    let txRc ← upgrade txWeak
    let tx ← borrow txRc
    release txRc
    if tx.component.isNone then pushTxs txs (queue ++ [txRc]) else pushTxs txs queue

/-- Push those of the keys that have not been visited. -/
def pushKeys : List NodeRef → List NodeRef → HeapM (List NodeRef)
  | [], queue => return queue
  | keyRc :: keys, queue => do
    let key ← borrow keyRc
    release keyRc
    if key.component.isNone then pushKeys keys (queue ++ [keyRc]) else pushKeys keys queue

/-- One iteration of `Node::traverse`, on the first node of the queue. -/
def visitCurrent (componentId : UInt32) (current : NodeRef) (queue component : List NodeRef) :
    HeapM (List NodeRef × List NodeRef) := do
  -- mark visit the current node.
  let node ← borrowMut current
  let (fresh, node) := node.visit componentId
  store current node
  let component := if fresh && node.isTxNode then component ++ [current] else component
  release current
  let node ← borrow current
  let queue ← match node.nodeType with
    | .key _ =>
      if node.keys.isSome then throw (.debugAssert "current.keys.is_none()")
      else
        match node.txs with
        | some txs => pushTxs txs queue
        | none => throw .unwrap
    | .tx _ =>
      if node.txs.isSome then throw (.debugAssert "current.txs.is_none()")
      else
        match node.keys with
        | some keys => pushKeys keys queue
        | none => throw .unwrap
  release current
  return (queue, component)

def traverseLoop (componentId : UInt32) : Nat → List NodeRef → List NodeRef → HeapM (List NodeRef)
  | _, [], component => return component
  | 0, _ :: _, _ => outOfFuel
  | fuel + 1, current :: queue, component => do
    let (queue, component) ← visitCurrent componentId current queue component
    traverseLoop componentId fuel queue component

/-- The transactions of the component of `start`, in the order they are visited in. -/
def traverse (fuel : Nat) (start : NodeRef) (componentId : UInt32) : HeapM (List NodeRef) :=
  traverseLoop componentId fuel [start] []

/-! ## Building the graph -/

section
variable [Ed25519]

/-- The access list. -/
def Transaction.accessList (tx : Transaction) : List Key := tx.function.validate tx.signature.1

/-- The node of the key, which is made where `keys_map` has none. -/
def keyEntry (key : Key) : HeapM NodeRef := do
  if ((← get) (.key key)).isNone then asRc (.key key) (Node.newKey key [])
  return .key key

/-- Add this transaction to the keys. -/
def addToKeys (txNode : NodeRef) : List Key → HeapM (List NodeRef)
  | [] => return []
  | key :: keys => do
    let keyNode ← keyEntry key
    let node ← borrowMut keyNode
    store keyNode (← orPanicH (node.addTx txNode))
    release keyNode
    return keyNode :: (← addToKeys txNode keys)

def addKeys (txNode : NodeRef) : List NodeRef → HeapM Unit
  | [] => return ()
  | key :: keys => do
    let node ← borrowMut txNode
    store txNode (← orPanicH (node.addKey key))
    release txNode
    addKeys txNode keys

def transactionNode (position : Nat) (tx : Transaction) : HeapM NodeRef := do
  let txNode := .tx position
  asRc txNode (Node.newTx tx.id [])
  let keys ← addToKeys txNode tx.accessList
  addKeys txNode keys
  return txNode

def transactionNodes : Nat → List Transaction → HeapM (List NodeRef)
  | _, [] => return []
  | position, tx :: txs => do
    let txNode ← transactionNode position tx
    return txNode :: (← transactionNodes (position + 1) txs)

def traverseAll (fuel : Nat) : Nat → List NodeRef → HeapM (List (List NodeRef))
  | _, [] => return []
  | id, txNode :: txNodes => do
    let component ← traverse fuel txNode (UInt32.ofNat id)
    return component :: (← traverseAll fuel (id + 1) txNodes)

/-- The member lists of the components. -/
def connectedComponents (fuel : Nat) (txs : Pool) : HeapM (List (List NodeRef)) := do
  let txNodes ← transactionNodes 0 txs
  let components ← traverseAll fuel 0 txNodes
  return components.filter fun c => !c.isEmpty

/-! ## Assigning the components -/

omit [Ed25519] in
/-- `Iterator::max_by_key`: the last of the greatest elements. -/
def maxByKey {A : Type} (key : A → Nat) : List A → Option A
  | [] => none
  | x :: xs => some (xs.foldl (fun best y => if key best ≤ key y then y else best) x)

omit [Ed25519] in
/-- `Iterator::min_by_key`: the first of the least elements. -/
def minByKey {A : Type} (key : A → Nat) : List A → Option A
  | [] => none
  | x :: xs => some (xs.foldl (fun best y => if key y < key best then y else best) x)

/-- The components of each worker: a `BTreeMap`, in the order of the ids. -/
abbrev ComponentWorkers := List (ThreadId × List NodeRef)

omit [Ed25519] in
def ComponentWorkers.insert (worker : ThreadId) (nodes : List NodeRef) :
    ComponentWorkers → ComponentWorkers
  | [] => [(worker, nodes)]
  | (w, v) :: rest =>
    if worker < w then (worker, nodes) :: (w, v) :: rest
    else if worker = w then (worker, nodes) :: rest
    else (w, v) :: ComponentWorkers.insert worker nodes rest

/-- Assign the components that are left, the largest first, to the smallest thread
group. -/
def assignComponents : Nat → List (List NodeRef) → ComponentWorkers →
    HeapM (List (List NodeRef) × ComponentWorkers)
  | 0, _, _ => outOfFuel
  | fuel + 1, components, workers => do
    -- Get the largest component.
    let some (largest, index) := maxByKey (fun c => c.1.length) components.zipIdx | throw .unwrap
    -- smallest thread group.
    let some ((k, v), place) := minByKey (fun w => w.1.2.length) workers.zipIdx | throw .unwrap
    let workers := workers.set place (k, v ++ largest)
    let components := components.eraseIdx index
    if components.length = 0 then return (components, workers)
    else assignComponents fuel components workers

/-- `get_mut(search).unwrap()`, with a change to what it finds. -/
def Pool.modifyFirst (search : Transaction → Bool) (change : Transaction → Transaction) :
    Pool → Except Panic Pool
  | [] => .error .unwrap
  | tx :: pool => do
    if search tx then return change tx :: pool
    else return tx :: (← Pool.modifyFirst search change pool)

/-- Tag the transactions of a worker. -/
def tagTransactions (worker : ThreadId) : List NodeRef → Pool → HeapM Pool
  | [], txs => return txs
  | tx :: txNodes, txs => do
    let node ← borrow tx
    release tx
    match node.nodeType with
    | .tx tid =>
      let txs ← orPanicH (txs.modifyFirst (fun t => t.id == tid) fun t =>
        { t with tag := .done worker })
      tagTransactions worker txNodes txs
    | .key _ => throw (.message "Unexpected node type")

def tagAll : ComponentWorkers → Pool → HeapM Pool
  | [], txs => return txs
  | (worker, txNodes) :: workers, txs => do
    tagAll workers (← tagTransactions worker txNodes txs)

def Transaction.isDone (tx : Transaction) : Bool :=
  match tx.tag with
  | .done _ => true
  | _ => false

def debugAssert (holds : Bool) (text : String) : HeapM Unit :=
  if holds then return () else throw (.debugAssert text)

/-- `ConnectedComponents::distribute`. -/
def distribute (fuel : Nat) (workerIds : List ThreadId) (txs : Pool) : HeapM Pool := do
  let components ← connectedComponents fuel txs
  debugAssert ((components.map List.length).sum == txs.length)
    "All transactions must be assigned to a component."
  let workers : ComponentWorkers := workerIds.foldl (fun m i => ComponentWorkers.insert i [] m) []
  let (components, workers) ← assignComponents fuel components workers
  debugAssert components.isEmpty "All components must be drained."
  debugAssert ((workers.map fun w => w.2.length).sum == txs.length)
    "all transactions within the components must be assigned to a worker."
  let txs ← tagAll workers txs
  debugAssert (txs.all Transaction.isDone)
    "All transactions inside the pool must have a Done(_) status."
  return txs

end
/-! ## Fuel -/

section
variable {A B : Type} {fuel fuel' : Nat}

/-- Where `m` comes to an end, `m'` does in the same way. -/
def HeapM.Extends (m m' : HeapM A) : Prop := ∀ heap r, m heap = some r → m' heap = some r

theorem HeapM.Extends.refl (m : HeapM A) : m.Extends m := fun _ _ h => h

theorem HeapM.Extends.bind {m m' : HeapM A} {f f' : A → HeapM B} (hm : m.Extends m')
    (hf : ∀ a, (f a).Extends (f' a)) : (m >>= f).Extends (m' >>= f') := by
  intro heap r h
  change Option.bind (m heap) _ = _ at h
  change Option.bind (m' heap) _ = _
  obtain ⟨r₁, hm₁, hrest⟩ := Option.bind_eq_some_iff.mp h
  rw [hm heap r₁ hm₁, Option.bind_some]
  cases r₁ with
  | error why => exact hrest
  | ok out => exact hf out.1 out.2 r hrest

theorem traverseLoop_extends (h : fuel ≤ fuel') (componentId : UInt32)
    (queue component : List NodeRef) : (traverseLoop componentId fuel queue component).Extends
      (traverseLoop componentId fuel' queue component) := by
  induction fuel generalizing fuel' queue component with
  | zero =>
    cases queue with
    | nil => cases fuel' <;> exact .refl _
    | cons current queue => intro heap r hnone; cases hnone
  | succ fuel ih =>
    obtain ⟨fuel', rfl⟩ := Nat.exists_eq_add_of_le' (Nat.lt_of_lt_of_le (Nat.succ_pos fuel) h)
    cases queue with
    | nil => exact .refl _
    | cons current queue => exact .bind (.refl _) fun _ => ih (by omega) _ _

theorem assignComponents_extends (h : fuel ≤ fuel') (components : List (List NodeRef))
    (workers : ComponentWorkers) : (assignComponents fuel components workers).Extends
      (assignComponents fuel' components workers) := by
  induction fuel generalizing fuel' components workers with
  | zero => intro heap r hnone; cases hnone
  | succ fuel ih =>
    obtain ⟨fuel', rfl⟩ := Nat.exists_eq_add_of_le' (Nat.lt_of_lt_of_le (Nat.succ_pos fuel) h)
    rw [assignComponents, assignComponents]
    split
    · split
      · dsimp only
        split
        · exact .refl _
        · exact ih (by omega) _ _
      · exact .refl _
    · exact .refl _

theorem traverseAll_extends (h : fuel ≤ fuel') (id : Nat) (txNodes : List NodeRef) :
    (traverseAll fuel id txNodes).Extends (traverseAll fuel' id txNodes) := by
  induction txNodes generalizing id with
  | nil => exact .refl _
  | cons txNode txNodes ih =>
    exact .bind (traverseLoop_extends h _ _ _) fun _ => .bind (ih _) fun _ => .refl _

end

section
variable [Ed25519] {fuel fuel' : Nat}

/-- **More fuel changes nothing** where the distribution comes to an end. -/
theorem distribute_extends (h : fuel ≤ fuel') (workerIds : List ThreadId) (txs : Pool) :
    (distribute fuel workerIds txs).Extends (distribute fuel' workerIds txs) := by
  refine .bind (.bind (.refl _) fun _ => .bind (traverseAll_extends h _ _) fun _ => .refl _)
    fun components => .bind (.refl _) fun _ => ?_
  exact .bind (assignComponents_extends h _ _) fun _ => .refl _

end

end SonicChain
