import SonicChain.Distribution

/-! # Distribution by connectivity

The heap of a graph that is built or searched is described by a `Graph`
(`Graph.heap`), with each cell released between two operations.  One iteration of
`traverse` is one step of `GraphSearch` on it (`visitCurrent_runs`), so a traversal
finds what can be reached from its start.  What the traversals of all transactions
find are the classes of linked transactions, and each class is assigned whole.
-/

namespace SonicChain

/-! ## Runs -/

/-- The code runs from one heap to another and returns, without a panic. -/
def HeapM.Runs {A : Type} (m : HeapM A) (heap : Heap) (a : A) (heap' : Heap) : Prop :=
  m heap = some (.ok (a, heap'))

section
variable {A B : Type} {heap heap' heap'' : Heap} {r : NodeRef} {node node' : Node}

theorem runs_pure (a : A) (heap : Heap) : HeapM.Runs (pure a) heap a heap := rfl

theorem HeapM.Runs.bind {m : HeapM A} {f : A → HeapM B} {a : A} {b : B}
    (hm : m.Runs heap a heap') (hf : (f a).Runs heap' b heap'') :
    HeapM.Runs (m >>= f) heap b heap'' := by
  change Option.bind (m heap) _ = _
  rw [hm]
  exact hf

theorem HeapM.Runs.of_bind {m : HeapM A} {f : A → HeapM B} {b : B}
    (h : HeapM.Runs (m >>= f) heap b heap'') :
    ∃ a heap', m.Runs heap a heap' ∧ (f a).Runs heap' b heap'' := by
  change Option.bind (m heap) _ = _ at h
  match hm : m heap with
  | none => rw [hm] at h; cases h
  | some (.error why) =>
    rw [hm] at h
    cases h
  | some (.ok (a, heap')) =>
    rw [hm] at h
    exact ⟨a, heap', hm, h⟩

theorem runs_pure_iff {a a' : A} :
    HeapM.Runs (pure a) heap a' heap' ↔ a = a' ∧ heap = heap' := by
  change some (Except.ok (a, heap)) = some (.ok (a', heap')) ↔ _
  simp

theorem get_runs (heap : Heap) : HeapM.Runs get heap heap heap := rfl

theorem orPanicH_runs (a : A) (heap : Heap) : (orPanicH (.ok a)).Runs heap a heap := rfl

theorem asRc_runs (r : NodeRef) (node : Node) (heap : Heap) :
    (asRc r node).Runs heap () (Function.update heap r (some ⟨node, .reading 0⟩)) := rfl

theorem debugAssert_runs {holds : Bool} (h : holds = true) (text : String) (heap : Heap) :
    (debugAssert holds text).Runs heap () heap := by
  rw [debugAssert, if_pos h]
  exact runs_pure () heap

theorem upgrade_runs {cell : NodeCell} (h : heap r = some cell) :
    (upgrade r).Runs heap r heap :=
  .bind (get_runs heap) (by rw [h]; exact runs_pure r heap)

theorem cell_runs {c : NodeCell} (h : heap r = some c) : (cell r).Runs heap c heap :=
  .bind (get_runs heap) (by rw [h]; exact runs_pure c heap)

theorem borrow_runs {n : Nat} (h : heap r = some ⟨node, .reading n⟩) :
    (borrow r).Runs heap node (Function.update heap r (some ⟨node, .reading (n + 1)⟩)) :=
  .bind (cell_runs h) rfl

theorem borrowMut_runs (h : heap r = some ⟨node, .reading 0⟩) :
    (borrowMut r).Runs heap node (Function.update heap r (some ⟨node, .writing⟩)) :=
  .bind (cell_runs h) rfl

theorem store_runs (h : heap r = some ⟨node, .writing⟩) :
    (store r node').Runs heap () (Function.update heap r (some ⟨node', .writing⟩)) :=
  .bind (cell_runs h) rfl

theorem release_reading_runs {n : Nat} (h : heap r = some ⟨node, .reading n⟩) :
    (release r).Runs heap () (Function.update heap r (some ⟨node, .reading (n - 1)⟩)) :=
  .bind (cell_runs h) rfl

theorem release_writing_runs (h : heap r = some ⟨node, .writing⟩) :
    (release r).Runs heap () (Function.update heap r (some ⟨node, .reading 0⟩)) :=
  .bind (cell_runs h) rfl

/-- What a reader does between its borrow and the release leaves the cell as it was. -/
theorem release_borrowed_runs {n : Nat} (h : heap r = some ⟨node, .reading n⟩) :
    (release r).Runs (Function.update heap r (some ⟨node, .reading (n + 1)⟩)) () heap := by
  have hsame : Function.update (Function.update heap r (some ⟨node, .reading (n + 1)⟩)) r
      (some ⟨node, .reading n⟩) = heap := by
    rw [Function.update_idem, ← h, Function.update_eq_self]
  have hcell : Function.update heap r (some ⟨node, .reading (n + 1)⟩) r =
      some ⟨node, .reading (n + 1)⟩ := Function.update_self ..
  have hruns := release_reading_runs hcell
  rwa [Nat.add_sub_cancel, hsame] at hruns

/-- A write: the cell is borrowed, stored to and released. -/
theorem write_runs {f : Node → HeapM Node} {k : HeapM B} {b : B}
    (h : heap r = some ⟨node, .reading 0⟩)
    (hf : ∀ heap, (f node).Runs heap node' heap)
    (hk : k.Runs (Function.update heap r (some ⟨node', .reading 0⟩)) b heap') :
    HeapM.Runs (do
      let node ← borrowMut r
      store r (← f node)
      release r
      k) heap b heap' := by
  refine .bind (borrowMut_runs h) ?_
  refine .bind (hf _) ?_
  refine .bind (store_runs (Function.update_self ..)) ?_
  refine .bind (release_writing_runs (Function.update_self ..)) ?_
  rw [Function.update_idem, Function.update_idem]
  exact hk

/-! ## What is pushed -/

/-- There is a node that has not been visited. -/
def unvisited (heap : Heap) (r : NodeRef) : Bool :=
  (heap r).any fun cell => cell.node.component.isNone

/-- The cell is alive, and no one writes to it. -/
def Readable (heap : Heap) (r : NodeRef) : Prop := ∃ node n, heap r = some ⟨node, .reading n⟩

theorem pushTxs_runs {txs : List NodeRef} (h : ∀ r ∈ txs, Readable heap r) (queue : List NodeRef) :
    (pushTxs txs queue).Runs heap (queue ++ txs.filter (unvisited heap)) heap := by
  induction txs generalizing queue with
  | nil => rw [List.filter_nil, List.append_nil]; exact runs_pure queue heap
  | cons r txs ih =>
    obtain ⟨node, n, hr⟩ := h r (List.mem_cons_self ..)
    have ih := ih fun r hr => h r (List.mem_cons_of_mem _ hr)
    have hun : unvisited heap r = node.component.isNone := by rw [unvisited, hr]; rfl
    refine .bind (upgrade_runs hr) (.bind (borrow_runs hr) (.bind (release_borrowed_runs hr) ?_))
    cases hc : node.component.isNone with
    | true =>
      rw [List.filter_cons_of_pos (hun.trans hc)]
      have hrest := ih (queue ++ [r])
      rw [List.append_assoc] at hrest
      exact hrest
    | false =>
      rw [List.filter_cons_of_neg (by rw [hun, hc]; decide)]
      exact ih queue

theorem pushKeys_runs {keys : List NodeRef} (h : ∀ r ∈ keys, Readable heap r)
    (queue : List NodeRef) :
    (pushKeys keys queue).Runs heap (queue ++ keys.filter (unvisited heap)) heap := by
  induction keys generalizing queue with
  | nil => rw [List.filter_nil, List.append_nil]; exact runs_pure queue heap
  | cons r keys ih =>
    obtain ⟨node, n, hr⟩ := h r (List.mem_cons_self ..)
    have ih := ih fun r hr => h r (List.mem_cons_of_mem _ hr)
    have hun : unvisited heap r = node.component.isNone := by rw [unvisited, hr]; rfl
    refine .bind (borrow_runs hr) (.bind (release_borrowed_runs hr) ?_)
    cases hc : node.component.isNone with
    | true =>
      rw [List.filter_cons_of_pos (hun.trans hc)]
      have hrest := ih (queue ++ [r])
      rw [List.append_assoc] at hrest
      exact hrest
    | false =>
      rw [List.filter_cons_of_neg (by rw [hun, hc]; decide)]
      exact ih queue

end

/-! ## Heaps -/

namespace Node

/-- The nodes that the node points to. -/
def next (n : Node) : List NodeRef :=
  match n.nodeType with
  | .tx _ => n.keys.getD []
  | .key _ => n.txs.getD []

/-- A transaction's node has the list of its keys, a key's node the list of its transactions,
and neither has the other list. -/
def WellFormed (n : Node) : Prop :=
  match n.nodeType with
  | .tx _ => n.keys.isSome = true ∧ n.txs = none
  | .key _ => n.txs.isSome = true ∧ n.keys = none

end Node

namespace Heap

/-- The nodes that the node points to. -/
def next (heap : Heap) (r : NodeRef) : List NodeRef :=
  ((heap r).map fun cell => cell.node.next).getD []

def marked (heap : Heap) (r : NodeRef) : Bool :=
  (heap r).any fun cell => cell.node.component.isSome

def isTx (heap : Heap) (r : NodeRef) : Bool := (heap r).any fun cell => cell.node.isTxNode

/-- The component marks. -/
def component (heap : Heap) (r : NodeRef) : Option UInt32 :=
  (heap r).bind fun cell => cell.node.component

/-- The heap with other component marks. -/
def mark (component : NodeRef → Option UInt32) (heap : Heap) : Heap := fun r =>
  (heap r).map fun cell => { cell with node := { cell.node with component := component r } }

/-- The heap holds a graph: nothing is borrowed, and each node points to nodes that
are alive. -/
structure WellFormed (heap : Heap) : Prop where
  released : ∀ r cell, heap r = some cell → cell.flag = .reading 0
  made : ∀ r cell, heap r = some cell → cell.node.WellFormed
  alive : ∀ r, ∀ x ∈ heap.next r, (heap x).isSome = true

/-- The component marks after the node has been visited. -/
def visitMark (id : UInt32) (r : NodeRef) (component : NodeRef → Option UInt32) :
    NodeRef → Option UInt32 :=
  if (component r).isSome then component else Function.update component r (some id)

variable {heap : Heap} {r : NodeRef} {cell : NodeCell} {component : NodeRef → Option UInt32}

theorem mark_component (heap : Heap) : heap.mark heap.component = heap := by
  funext r
  rw [mark, component]
  cases heap r <;> rfl

theorem marked_mark (h : (heap r).isSome) : (heap.mark component).marked r = (component r).isSome := by
  obtain ⟨cell, hcell⟩ := Option.isSome_iff_exists.mp h
  rw [marked, mark, hcell]
  rfl

theorem next_of_cell (h : heap r = some cell) : heap.next r = cell.node.next := by
  rw [next, h]
  rfl

theorem WellFormed.mark_cell (hwf : heap.WellFormed) (h : heap r = some cell) :
    heap.mark component r = some ⟨{ cell.node with component := component r }, .reading 0⟩ := by
  rw [mark, h, ← hwf.released r cell h]
  rfl

theorem WellFormed.readable_mark (hwf : heap.WellFormed) (h : (heap r).isSome) :
    Readable (heap.mark component) r := by
  obtain ⟨cell, hcell⟩ := Option.isSome_iff_exists.mp h
  exact ⟨_, 0, hwf.mark_cell hcell⟩

theorem unvisited_mark (h : (heap r).isSome) :
    unvisited (heap.mark component) r = (component r).isNone := by
  obtain ⟨cell, hcell⟩ := Option.isSome_iff_exists.mp h
  rw [unvisited, mark, hcell]
  rfl

theorem isSome_visitMark (id : UInt32) (r : NodeRef) (component : NodeRef → Option UInt32) :
    (fun x => (visitMark id r component x).isSome) =
      Function.update (fun x => (component x).isSome) r true := by
  funext x
  rw [visitMark]
  by_cases hr : (component r).isSome = true
  · rw [if_pos hr]
    by_cases hx : x = r
    · rw [hx, Function.update_self, hr]
    · rw [Function.update_of_ne hx]
  · rw [if_neg hr]
    by_cases hx : x = r
    · rw [hx, Function.update_self, Function.update_self]
      rfl
    · rw [Function.update_of_ne hx, Function.update_of_ne hx]

theorem visit_node (id : UInt32) (r : NodeRef) (node : Node) :
    ({ node with component := component r } : Node).visit id =
      ((component r).isNone, { node with component := visitMark id r component r }) := by
  rw [Node.visit, visitMark]
  cases hc : component r with
  | none => simp
  | some c => simp [hc]

theorem WellFormed.mark_visitMark (hwf : heap.WellFormed) (h : heap r = some cell) (id : UInt32)
    (component : NodeRef → Option UInt32) :
    heap.mark (visitMark id r component) = Function.update (heap.mark component) r
      (some ⟨{ cell.node with component := visitMark id r component r }, .reading 0⟩) := by
  funext x
  by_cases hx : x = r
  · subst hx
    rw [Function.update_self, hwf.mark_cell h]
  · have hsame : visitMark id r component x = component x := by
      rw [visitMark]
      split
      · rfl
      · rw [Function.update_of_ne hx]
    rw [Function.update_of_ne hx, mark, mark, hsame]

end Heap

/-- The node is read while the nodes it points to are pushed. -/
theorem readable_borrowed {heap : Heap} {r : NodeRef} {node : Node} {n : Nat}
    (h : heap r = some ⟨node, .reading n⟩) {x : NodeRef} (hx : Readable heap x) :
    Readable (Function.update heap r (some ⟨node, .reading (n + 1)⟩)) x := by
  by_cases hxr : x = r
  · subst hxr
    exact ⟨node, n + 1, Function.update_self ..⟩
  · obtain ⟨node', m, hm⟩ := hx
    exact ⟨node', m, by rw [Function.update_of_ne hxr, hm]⟩

theorem unvisited_borrowed {heap : Heap} {r : NodeRef} {node : Node} {n : Nat}
    (h : heap r = some ⟨node, .reading n⟩) :
    unvisited (Function.update heap r (some ⟨node, .reading (n + 1)⟩)) = unvisited heap := by
  funext x
  by_cases hxr : x = r
  · subst hxr
    rw [unvisited, unvisited, Function.update_self, h]
    rfl
  · rw [unvisited, unvisited, Function.update_of_ne hxr]

section
variable {heap : Heap} {r : NodeRef} {component : NodeRef → Option UInt32}

/-- **One iteration of the traversal is one step of the search**, in any graph of
which some nodes are marked. -/
theorem Heap.WellFormed.visitCurrent_runs (hwf : heap.WellFormed) {cell : NodeCell}
    (hr : heap r = some cell) (component : NodeRef → Option UInt32) (id : UInt32)
    (queue found : List NodeRef) :
    (visitCurrent id r queue found).Runs (heap.mark component)
      (queue ++ (heap.next r).filter (fun x => !(Heap.visitMark id r component x).isSome),
        if !(component r).isSome && cell.node.isTxNode then found ++ [r] else found)
      (heap.mark (Heap.visitMark id r component)) := by
  have hvisit := hwf.mark_visitMark hr id component
  have hcell : heap.mark (Heap.visitMark id r component) r = _ := hwf.mark_cell hr
  set heap' := heap.mark (Heap.visitMark id r component) with hheap'
  have hread : ∀ x ∈ heap.next r, Readable (Function.update heap' r
      (some ⟨{ cell.node with component := Heap.visitMark id r component r },
        .reading (0 + 1)⟩)) x := fun x hx =>
    readable_borrowed hcell (hwf.readable_mark (hwf.alive r x hx))
  have hpushed : (heap.next r).filter (unvisited (Function.update heap' r
      (some ⟨{ cell.node with component := Heap.visitMark id r component r },
        .reading (0 + 1)⟩))) =
        (heap.next r).filter fun x => !(Heap.visitMark id r component x).isSome := by
    rw [unvisited_borrowed hcell]
    refine List.filter_congr fun x hx => ?_
    rw [Heap.unvisited_mark (hwf.alive r x hx), Option.not_isSome]
  have hfound : (if (component r).isNone && cell.node.isTxNode then found ++ [r] else found) =
      if !(component r).isSome && cell.node.isTxNode then found ++ [r] else found := by
    rw [Option.not_isSome]
  rw [Heap.next_of_cell hr, Node.next] at hread hpushed ⊢
  have hmade := hwf.made r cell hr
  rw [Node.WellFormed] at hmade
  refine .bind (borrowMut_runs (hwf.mark_cell hr)) ?_
  simp only [Heap.visit_node]
  refine .bind (store_runs (Function.update_self ..)) ?_
  refine .bind (release_writing_runs (Function.update_self ..)) ?_
  rw [Function.update_idem, Function.update_idem, ← hvisit]
  refine .bind (borrow_runs hcell) ?_
  cases htype : cell.node.nodeType with
  | tx tid =>
    have hisTx : cell.node.isTxNode = true := by rw [Node.isTxNode, htype]
    rw [htype] at hmade
    obtain ⟨hkeys, htxs⟩ := hmade
    obtain ⟨keys, hkeys⟩ := Option.isSome_iff_exists.mp hkeys
    simp only [htype, hkeys, htxs, Option.getD_some] at hread hpushed hcell ⊢
    simp only [Option.isSome_none, Bool.false_eq_true, ↓reduceIte]
    refine .bind (pushKeys_runs hread queue) (.bind (release_borrowed_runs hcell) ?_)
    rw [hpushed, ← hfound, hisTx]
    exact runs_pure _ _
  | key k =>
    have hisTx : cell.node.isTxNode = false := by rw [Node.isTxNode, htype]
    rw [htype] at hmade
    obtain ⟨htxs, hkeys⟩ := hmade
    obtain ⟨txs, htxs⟩ := Option.isSome_iff_exists.mp htxs
    simp only [htype, hkeys, htxs, Option.getD_some] at hread hpushed hcell ⊢
    simp only [Option.isSome_none, Bool.false_eq_true, ↓reduceIte]
    refine .bind (pushTxs_runs hread queue) (.bind (release_borrowed_runs hcell) ?_)
    rw [hpushed, ← hfound, hisTx]
    exact runs_pure _ _

/-- The search that a traversal makes. -/
def Heap.progress (component : NodeRef → Option UInt32) (queue found : List NodeRef) :
    GraphSearch.Progress NodeRef :=
  ⟨fun x => (component x).isSome, queue, found⟩

theorem Heap.step_progress (heap : Heap) (component : NodeRef → Option UInt32) (id : UInt32)
    (r : NodeRef) (queue found : List NodeRef) :
    GraphSearch.step heap.next (Heap.progress component (r :: queue) found) =
      Heap.progress (Heap.visitMark id r component)
        (queue ++ (heap.next r).filter fun x => !(Heap.visitMark id r component x).isSome)
        (if (component r).isSome then found else found ++ [r]) := by
  have hmark := Heap.isSome_visitMark id r component
  have hpushed : (heap.next r).filter (fun x => !(Heap.visitMark id r component x).isSome) =
      (heap.next r).filter fun x => !Function.update (fun x => (component x).isSome) r true x :=
    List.filter_congr fun x _ => by rw [← hmark]
  rw [Heap.progress, Heap.progress, hmark, hpushed]
  rfl

/-- The traversal after so many iterations, or fewer where it ends before: what is in
the queue, and the component as far as it has been found. -/
def traverseSteps (componentId : UInt32) :
    Nat → List NodeRef → List NodeRef → HeapM (List NodeRef × List NodeRef)
  | 0, queue, component => return (queue, component)
  | _ + 1, [], component => return ([], component)
  | n + 1, current :: queue, component => do
    let (queue, component) ← visitCurrent componentId current queue component
    traverseSteps componentId n queue component

/-- The traversal returns once it has iterated until the queue is empty. -/
theorem traverseLoop_runs_of_steps {heap heap' : Heap} {id : UInt32} {n : Nat}
    {queue found found' : List NodeRef}
    (h : (traverseSteps id n queue found).Runs heap ([], found') heap') :
    ∀ fuel ≥ n, (traverseLoop id fuel queue found).Runs heap found' heap' := by
  induction n generalizing heap queue found with
  | zero =>
    intro fuel _
    obtain ⟨hpair, rfl⟩ := runs_pure_iff.mp h
    obtain ⟨rfl, rfl⟩ := Prod.mk.inj hpair
    rw [traverseLoop]
    exact runs_pure _ _
  | succ n ih =>
    intro fuel hfuel
    cases queue with
    | nil =>
      obtain ⟨hpair, rfl⟩ := runs_pure_iff.mp h
      obtain ⟨-, rfl⟩ := Prod.mk.inj hpair
      rw [traverseLoop]
      exact runs_pure _ _
    | cons r queue =>
      obtain ⟨⟨queue', found'⟩, heap₁, hvisit, hrest⟩ := HeapM.Runs.of_bind h
      obtain ⟨fuel, rfl⟩ : ∃ k, fuel = k + 1 := Nat.exists_eq_succ_of_ne_zero (by omega)
      exact hvisit.bind (ih hrest fuel (by omega))

/-- So many iterations are so many steps of the search. -/
theorem Heap.WellFormed.traverseSteps_runs (hwf : heap.WellFormed) {isTx : NodeRef → Bool}
    (hisTx : ∀ r cell, heap r = some cell → cell.node.isTxNode = isTx r)
    (component : NodeRef → Option UInt32) (id : UInt32) (n : Nat) {queue : List NodeRef}
    (found : List NodeRef) (halive : ∀ x ∈ queue, (heap x).isSome) :
    ∃ component',
      (traverseSteps id n queue (found.filter isTx)).Runs (heap.mark component)
        (((GraphSearch.step heap.next)^[n] (Heap.progress component queue found)).queue,
          ((GraphSearch.step heap.next)^[n] (Heap.progress component queue found)).found.filter isTx)
        (heap.mark component') ∧
      (fun x => (component' x).isSome) =
        ((GraphSearch.step heap.next)^[n] (Heap.progress component queue found)).marked := by
  induction n generalizing component queue found with
  | zero => exact ⟨component, runs_pure _ _, rfl⟩
  | succ n ih =>
    cases queue with
    | nil =>
      rw [GraphSearch.iterate_of_done _ rfl]
      exact ⟨component, runs_pure _ _, rfl⟩
    | cons r queue =>
      obtain ⟨cell, hcell⟩ := Option.isSome_iff_exists.mp (halive r (List.mem_cons_self ..))
      have hfound : (if !(component r).isSome && cell.node.isTxNode then found.filter isTx ++ [r]
          else found.filter isTx) =
            (if (component r).isSome then found else found ++ [r]).filter isTx := by
        rw [hisTx r cell hcell]
        cases (component r).isSome <;> cases hr : isTx r <;> simp [hr]
      rw [Function.iterate_succ_apply, Heap.step_progress heap component id]
      have halive' : ∀ x ∈ queue ++ (heap.next r).filter fun x =>
          !(Heap.visitMark id r component x).isSome, (heap x).isSome := by
        intro x hx
        rcases List.mem_append.mp hx with hx | hx
        · exact halive x (List.mem_cons_of_mem _ hx)
        · exact hwf.alive r x (List.mem_filter.mp hx).1
      obtain ⟨component', hruns, hmarked⟩ := ih _ _ halive'
      refine ⟨component', ?_, hmarked⟩
      have hvisit := hwf.visitCurrent_runs hcell component id queue (found.filter isTx)
      rw [hfound] at hvisit
      exact hvisit.bind hruns

/-- Once the search is done, the traversal returns the transactions it has found. -/
theorem Heap.WellFormed.traverseLoop_runs (hwf : heap.WellFormed) (isTx : NodeRef → Bool)
    (hisTx : ∀ r cell, heap r = some cell → cell.node.isTxNode = isTx r) (id : UInt32) {n : Nat}
    {queue found : List NodeRef} (halive : ∀ x ∈ queue, (heap x).isSome)
    (hdone : ((GraphSearch.step heap.next)^[n] (Heap.progress component queue found)).queue = []) :
    ∃ component',
      (∀ fuel ≥ n, (traverseLoop id fuel queue (found.filter isTx)).Runs (heap.mark component)
        (((GraphSearch.step heap.next)^[n] (Heap.progress component queue found)).found.filter isTx)
        (heap.mark component')) ∧
      (fun x => (component' x).isSome) =
        ((GraphSearch.step heap.next)^[n] (Heap.progress component queue found)).marked := by
  obtain ⟨component', hruns, hmarked⟩ :=
    hwf.traverseSteps_runs hisTx component id n found halive
  rw [hdone] at hruns
  exact ⟨component', traverseLoop_runs_of_steps hruns, hmarked⟩

end

/-! ## The graph -/

def NodeRef.isTx : NodeRef → Bool
  | .tx _ => true
  | .key _ => false

/-- The transactions with the keys that have been added to each, the transactions
that have been added to each key, by position, and what has been visited. -/
structure Graph where
  txs : List (TransactionId × List Key)
  touching : Key → List Nat
  component : NodeRef → Option UInt32

namespace Graph

/-- The node as it was made. -/
def shape (g : Graph) : NodeRef → Option Node
  | .tx i => g.txs[i]?.map fun t => Node.newTx t.1 (t.2.map .key)
  | .key k => if g.touching k = [] then none else some (Node.newKey k ((g.touching k).map .tx))

def node (g : Graph) (r : NodeRef) : Option Node :=
  (g.shape r).map fun node => { node with component := g.component r }

/-- The heap of the graph, with nothing borrowed. -/
def heap (g : Graph) : Heap := fun r => (g.node r).map (⟨·, .reading 0⟩)

/-- The nodes that the node points to. -/
def next (g : Graph) : NodeRef → List NodeRef
  | .tx i => (g.txs[i]?.map fun t => t.2.map NodeRef.key).getD []
  | .key k => (g.touching k).map .tx

def marked (g : Graph) (r : NodeRef) : Bool := (g.component r).isSome

def Alive (g : Graph) (r : NodeRef) : Prop := (g.shape r).isSome

/-- The nodes point to each other. -/
def Linked (g : Graph) : Prop :=
  ∀ i k, i ∈ g.touching k ↔ ∃ t, g.txs[i]? = some t ∧ k ∈ t.2

variable {g : Graph} {r : NodeRef}

theorem Linked.alive_next (h : g.Linked) {x : NodeRef} (hx : x ∈ g.next r) : g.Alive x := by
  cases r with
  | tx i =>
    rw [next] at hx
    cases ht : g.txs[i]? with
    | none => simp [ht] at hx
    | some t =>
      obtain ⟨k, hk, rfl⟩ : ∃ k ∈ t.2, .key k = x := by simpa [ht] using hx
      have hi : i ∈ g.touching k := (h i k).mpr ⟨t, ht, hk⟩
      rw [Alive, shape, if_neg (List.ne_nil_of_mem hi)]
      rfl
  | key k =>
    obtain ⟨i, hi, rfl⟩ := List.mem_map.mp hx
    obtain ⟨t, ht, -⟩ := (h i k).mp hi
    rw [Alive, shape, ht]
    rfl

theorem Linked.next_symm (h : g.Linked) (a b : NodeRef) (hb : b ∈ g.next a) : a ∈ g.next b := by
  cases a with
  | tx i =>
    rw [next] at hb
    cases ht : g.txs[i]? with
    | none => simp [ht] at hb
    | some t =>
      obtain ⟨k, hk, rfl⟩ : ∃ k ∈ t.2, .key k = b := by simpa [ht] using hb
      exact List.mem_map_of_mem ((h i k).mpr ⟨t, ht, hk⟩)
  | key k =>
    obtain ⟨i, hi, rfl⟩ := List.mem_map.mp hb
    obtain ⟨t, ht, hk⟩ := (h i k).mp hi
    rw [next, ht]
    exact List.mem_map_of_mem hk

theorem heap_mark (g : Graph) (component : NodeRef → Option UInt32) :
    g.heap.mark component = { g with component := component }.heap := by
  funext r
  have hshape : { g with component := component }.shape r = g.shape r := by cases r <;> rfl
  rw [Heap.mark, heap, heap, node, node, hshape]
  cases g.shape r <;> rfl

theorem heap_next (g : Graph) : g.heap.next = g.next := by
  funext r
  rw [Heap.next, heap, node]
  cases r with
  | tx i =>
    rw [next, shape]
    cases g.txs[i]? <;> rfl
  | key k =>
    rw [next, shape]
    split
    case isTrue hnil => rw [hnil]; rfl
    case isFalse => rfl

theorem isSome_heap : (g.heap r).isSome = true ↔ g.Alive r := by
  rw [heap, node, Option.isSome_map, Option.isSome_map, Alive]

/-- A transaction's node has the transaction's reference. -/
theorem isTxNode_of_heap {cell : NodeCell} (h : g.heap r = some cell) :
    cell.node.isTxNode = r.isTx := by
  obtain ⟨node, hnode, rfl⟩ := Option.map_eq_some_iff.mp h
  obtain ⟨made, hmade, rfl⟩ := Option.map_eq_some_iff.mp hnode
  cases r with
  | tx i =>
    obtain ⟨t, -, rfl⟩ := Option.map_eq_some_iff.mp hmade
    rfl
  | key k =>
    rw [shape] at hmade
    split at hmade
    · cases hmade
    · obtain rfl := Option.some.inj hmade
      rfl

theorem Linked.wellFormed (h : g.Linked) : g.heap.WellFormed where
  released r cell hr := by
    obtain ⟨node, -, rfl⟩ := Option.map_eq_some_iff.mp hr
    rfl
  made r cell hr := by
    obtain ⟨node, hnode, rfl⟩ := Option.map_eq_some_iff.mp hr
    obtain ⟨made, hmade, rfl⟩ := Option.map_eq_some_iff.mp hnode
    cases r with
    | tx i =>
      obtain ⟨t, -, rfl⟩ := Option.map_eq_some_iff.mp hmade
      exact ⟨rfl, rfl⟩
    | key k =>
      rw [shape] at hmade
      split at hmade
      · cases hmade
      · obtain rfl := Option.some.inj hmade
        exact ⟨rfl, rfl⟩
  alive r x hx := isSome_heap.mpr (h.alive_next (by rwa [heap_next] at hx))

end Graph

/-! ## A traversal is a search -/

section
variable {g : Graph} {r : NodeRef}

/-- The search that the traversal makes. -/
def Graph.progress (g : Graph) (queue found : List NodeRef) : GraphSearch.Progress NodeRef :=
  ⟨g.marked, queue, found⟩

/-- Once the search is done, the traversal returns the transactions it has found. -/
theorem traverseLoop_runs (hlinked : g.Linked) (id : UInt32) {n : Nat}
    {queue found : List NodeRef} (halive : ∀ x ∈ queue, g.Alive x)
    (hdone : ((GraphSearch.step g.next)^[n] (g.progress queue found)).queue = []) :
    ∃ component,
      (∀ fuel ≥ n, (traverseLoop id fuel queue (found.filter NodeRef.isTx)).Runs g.heap
        (((GraphSearch.step g.next)^[n] (g.progress queue found)).found.filter NodeRef.isTx)
        { g with component := component }.heap) ∧
      { g with component := component }.marked =
        ((GraphSearch.step g.next)^[n] (g.progress queue found)).marked := by
  have hsame : g.progress queue found = Heap.progress g.component queue found := rfl
  rw [← g.heap_next, hsame] at hdone ⊢
  obtain ⟨component, hruns, hmarked⟩ := hlinked.wellFormed.traverseLoop_runs NodeRef.isTx
    (fun _ _ => Graph.isTxNode_of_heap) id (fun x hx => Graph.isSome_heap.mpr (halive x hx)) hdone
  simp only [Graph.heap_mark] at hruns
  exact ⟨component, hruns, hmarked⟩

/-! ## All traversals -/

/-- All nodes of the graph. -/
def Graph.nodes (g : Graph) : Finset NodeRef :=
  ((List.range g.txs.length).map NodeRef.tx ++ (g.txs.flatMap (·.2)).map NodeRef.key).toFinset

theorem Graph.tx_mem_nodes {i : Nat} (hi : i < g.txs.length) : .tx i ∈ g.nodes := by
  simp [Graph.nodes, hi]

theorem Graph.Linked.mem_nodes (hlinked : g.Linked) {r : NodeRef} (hr : g.Alive r) :
    r ∈ g.nodes := by
  cases r with
  | tx i =>
    obtain ⟨made, hmade⟩ := Option.isSome_iff_exists.mp hr
    obtain ⟨t, ht, -⟩ := Option.map_eq_some_iff.mp hmade
    exact Graph.tx_mem_nodes (List.getElem?_eq_some_iff.mp ht).1
  | key k =>
    have htouched : g.touching k ≠ [] := by
      intro hnil
      rw [Graph.Alive, Graph.shape, if_pos hnil] at hr
      cases hr
    obtain ⟨i, hi⟩ := List.exists_mem_of_ne_nil _ htouched
    obtain ⟨t, ht, hk⟩ := (hlinked i k).mp hi
    have hkey : k ∈ g.txs.flatMap (·.2) := List.mem_flatMap.mpr ⟨t, List.mem_of_getElem? ht, hk⟩
    rw [Graph.nodes, List.mem_toFinset]
    exact List.mem_append.mpr (.inr (List.mem_map_of_mem hkey))

theorem Graph.Linked.next_mem_nodes (hlinked : g.Linked) {a b : NodeRef} (hb : b ∈ g.next a) :
    b ∈ g.nodes :=
  hlinked.mem_nodes (hlinked.alive_next hb)

theorem Graph.Linked.finite_alive (hlinked : g.Linked) : {r | (g.heap r).isSome}.Finite :=
  g.nodes.finite_toSet.subset fun _ hr => hlinked.mem_nodes (Graph.isSome_heap.mp hr)

def NodeRef.position? : NodeRef → Option Nat
  | .tx i => some i
  | .key _ => none

theorem filter_isTx (found : List NodeRef) :
    found.filter NodeRef.isTx = (found.filterMap NodeRef.position?).map .tx := by
  induction found with
  | nil => rfl
  | cons r found ih =>
    cases r with
    | tx i => rw [List.filter_cons_of_pos rfl, ih]; rfl
    | key k => rw [List.filter_cons_of_neg (by simp [NodeRef.isTx]), ih]; rfl

theorem mem_positions {found : List NodeRef} {i : Nat} :
    i ∈ found.filterMap NodeRef.position? ↔ .tx i ∈ found := by
  rw [List.mem_filterMap]
  constructor
  · rintro ⟨r, hr, hi⟩
    cases r with
    | tx j => exact Option.some.inj hi ▸ hr
    | key k => cases hi
  · exact fun hi => ⟨.tx i, hi, rfl⟩

/-- No edge leads out of what has been visited. -/
def Graph.VisitedClosed (g : Graph) : Prop :=
  ∀ a, g.marked a = true → ∀ b ∈ g.next a, g.marked b = true

theorem Graph.VisitedClosed.reach (h : g.VisitedClosed) {a b : NodeRef} (ha : g.marked a = true)
    (hreach : GraphSearch.Reach g.next a b) : g.marked b = true := by
  induction hreach with
  | refl => exact ha
  | tail _ hedge ih => exact h _ ih _ hedge

/-- The transactions that can be reached from the transaction. -/
structure Graph.Finds (g : Graph) (i : Nat) (found : List Nat) : Prop where
  first : found.head? = some i
  nodup : found.Nodup
  mem_iff : ∀ j, j ∈ found ↔ GraphSearch.Reach g.next (.tx i) (.tx j)

/-- A traversal finds all that can be reached from its start, or nothing where the
start has been visited before. -/
theorem traverse_runs (hlinked : g.Linked) (hclosed : g.VisitedClosed) (componentId : UInt32) {i : Nat}
    (hi : i < g.txs.length) :
    ∃ found component n,
      (∀ fuel ≥ n, (traverse fuel (.tx i) componentId).Runs g.heap (found.map .tx)
        { g with component := component }.heap) ∧
      { g with component := component }.VisitedClosed ∧
      (∀ r, { g with component := component }.marked r = true ↔
        g.marked r = true ∨ GraphSearch.Reach g.next (.tx i) r) ∧
      (g.marked (.tx i) = true ∧ found = [] ∨ g.marked (.tx i) = false ∧ g.Finds i found) := by
  have halive : ∀ x ∈ [NodeRef.tx i], g.Alive x := by
    intro x hx
    rw [List.mem_singleton.mp hx, Graph.Alive, Graph.shape, List.getElem?_eq_getElem hi]
    rfl
  cases hstart : g.marked (.tx i) with
  | true =>
    have hstep : (GraphSearch.step g.next)^[1] (g.progress [.tx i] []) = ⟨g.marked, [], []⟩ :=
      GraphSearch.step_begin_of_marked hstart hclosed
    obtain ⟨component, hruns, hmarked⟩ :=
      traverseLoop_runs hlinked componentId (n := 1) halive (by rw [hstep])
    rw [hstep] at hruns hmarked
    refine ⟨[], component, 1, hruns, ?_, fun r => ?_, .inl ⟨rfl, rfl⟩⟩
    · rw [Graph.VisitedClosed, hmarked]
      exact hclosed
    · rw [hmarked]
      exact ⟨.inl, fun hr => hr.elim id (hclosed.reach hstart)⟩
  | false =>
    have hnodes : ∀ a ∈ g.nodes, ∀ b ∈ g.next a, b ∈ g.nodes :=
      fun a _ b hb => hlinked.next_mem_nodes hb
    obtain ⟨n, hdone⟩ := GraphSearch.exists_iterate_done hnodes (g.progress [.tx i] [])
      (fun x hx => List.mem_singleton.mp hx ▸ Graph.tx_mem_nodes hi)
    have hsearch := (GraphSearch.Searching.begin g.next hstart).iterate n
    have hfound := hsearch.found_iff hdone hlinked.next_symm hclosed
    obtain ⟨component, hruns, hmarked⟩ := traverseLoop_runs hlinked componentId halive hdone
    set p := (GraphSearch.step g.next)^[n] (g.progress [.tx i] [])
    have hvisited : ∀ r, { g with component := component }.marked r = true ↔
        g.marked r = true ∨ GraphSearch.Reach g.next (.tx i) r := by
      intro r
      rw [hmarked]
      exact (hsearch.marked_iff r).trans (or_congr_right (hfound r))
    rw [filter_isTx p.found] at hruns
    refine ⟨_, component, n, hruns, fun a ha b hb => ?_, hvisited, .inr ⟨rfl, ?_, ?_, fun j => ?_⟩⟩
    · rcases (hvisited a).mp ha with ha | ha
      · exact (hvisited b).mpr (.inl (hclosed a ha b hb))
      · exact (hvisited b).mpr (.inr (ha.tail hb))
    · rcases hsearch.first with ⟨hqueue, -⟩ | hhead
      · exact absurd (hdone.symm.trans hqueue) (by simp)
      · obtain ⟨rest, hrest⟩ := List.head?_eq_some_iff.mp hhead
        rw [show p.found = .tx i :: rest from hrest]
        rfl
    · refine hsearch.nodup.filterMap ?_
      rintro (x | x) (y | y) b hx hy <;> simp_all [NodeRef.position?]
    · exact mem_positions.trans (hfound (.tx j))

/-- The classes that are found from the transactions from `position` on, each from
its first transaction. -/
structure Graph.FindsAll (g : Graph) (position : Nat) (classes : List (List Nat)) : Prop where
  starts : ∀ c ∈ classes, ∃ i, i < g.txs.length ∧ g.Finds i c ∧ ∀ j ∈ c, i ≤ j
  unvisited : ∀ c ∈ classes, ∀ j ∈ c, g.marked (.tx j) = false
  covers : ∀ i, position ≤ i → i < g.txs.length → g.marked (.tx i) = false → ∃ c ∈ classes, i ∈ c
  ordered : classes.Pairwise fun c d => c.Disjoint d ∧ ∀ i ∈ c.head?, ∀ j ∈ d.head?, i < j

theorem Graph.Finds.unvisited (hlinked : g.Linked) (hclosed : g.VisitedClosed) {i : Nat}
    {found : List Nat} (h : g.Finds i found) (hi : g.marked (.tx i) = false) {j : Nat}
    (hj : j ∈ found) : g.marked (.tx j) = false := by
  have hback := ((h.mem_iff j).mp hj).symm hlinked.next_symm
  by_contra hmarked
  have hstart := hclosed.reach (by simpa using hmarked) hback
  rw [hi] at hstart
  cases hstart

section
variable {position : Nat} {component : NodeRef → Option UInt32} {found : List Nat}
  {rest : List (List Nat)} (hlinked : g.Linked) (hclosed : g.VisitedClosed)
  (hvisited : ∀ r, { g with component := component }.marked r = true ↔
    g.marked r = true ∨ GraphSearch.Reach g.next (.tx position) r)
include hclosed hvisited

theorem Graph.FindsAll.of_visited (hstart : g.marked (.tx position) = true)
    (hrest : { g with component := component }.FindsAll (position + 1) rest) :
    g.FindsAll position rest := by
  have hsame : ∀ r, { g with component := component }.marked r = g.marked r := fun r =>
    Bool.eq_iff_iff.mpr ((hvisited r).trans
      ⟨fun hr => hr.elim id (hclosed.reach hstart), .inl⟩)
  refine ⟨fun c hc => ?_, fun c hc j hj => ?_, fun i hle hi hun => ?_, hrest.ordered⟩
  · obtain ⟨i, hi, hfound, hfirst⟩ := hrest.starts c hc
    exact ⟨i, hi, ⟨hfound.first, hfound.nodup, hfound.mem_iff⟩, hfirst⟩
  · rw [← hsame]
    exact hrest.unvisited c hc j hj
  · refine hrest.covers i ?_ hi ((hsame _).trans hun)
    rcases Nat.eq_or_lt_of_le hle with rfl | hlt
    · rw [hstart] at hun; cases hun
    · exact hlt

include hlinked in
theorem Graph.FindsAll.cons (hbefore : ∀ i < position, g.marked (.tx i) = true)
    (hi : position < g.txs.length) (hstart : g.marked (.tx position) = false)
    (hfound : g.Finds position found)
    (hrest : { g with component := component }.FindsAll (position + 1) rest) :
    g.FindsAll position (found :: rest) := by
  have hmem : position ∈ found := (hfound.mem_iff position).mpr .refl
  -- What is not visited after the traversal was not visited before it.
  have hmono : ∀ r, { g with component := component }.marked r = false →
      g.marked r = false ∧ ¬ GraphSearch.Reach g.next (.tx position) r := by
    intro r hr
    have hnot := (hvisited r).not.mp (by rw [hr]; decide)
    rw [not_or] at hnot
    exact ⟨by simpa using hnot.1, hnot.2⟩
  have hlater : ∀ i, { g with component := component }.marked (.tx i) = false → position < i := by
    intro i hun
    obtain ⟨hold, hreach⟩ := hmono _ hun
    by_contra hle
    rcases Nat.lt_or_eq_of_le (Nat.le_of_not_lt hle) with hlt | rfl
    · rw [hbefore i hlt] at hold; cases hold
    · exact hreach .refl
  refine ⟨fun c hc => ?_, fun c hc j hj => ?_, fun i hle hlt hun => ?_, ?_⟩
  · rcases List.mem_cons.mp hc with rfl | hc
    · refine ⟨position, hi, hfound, fun j hj => ?_⟩
      by_contra hlt
      have hun := hfound.unvisited hlinked hclosed hstart hj
      rw [hbefore j (by omega)] at hun
      cases hun
    · obtain ⟨i, hi, hc, hfirst⟩ := hrest.starts c hc
      exact ⟨i, hi, ⟨hc.first, hc.nodup, hc.mem_iff⟩, hfirst⟩
  · rcases List.mem_cons.mp hc with rfl | hc
    · exact hfound.unvisited hlinked hclosed hstart hj
    · exact (hmono _ (hrest.unvisited c hc j hj)).1
  · by_cases hreach : GraphSearch.Reach g.next (.tx position) (.tx i)
    · exact ⟨found, List.mem_cons_self .., (hfound.mem_iff i).mpr hreach⟩
    · have hun' : { g with component := component }.marked (.tx i) = false := by
        have := (hvisited (.tx i)).not.mpr (not_or.mpr ⟨by rw [hun]; decide, hreach⟩)
        simpa using this
      obtain ⟨c, hc, hic⟩ := hrest.covers i (hlater i hun') hlt hun'
      exact ⟨c, List.mem_cons_of_mem _ hc, hic⟩
  · refine List.pairwise_cons.mpr ⟨fun d hd => ⟨fun j hj hjd => ?_, fun i hic j hjd => ?_⟩,
      hrest.ordered⟩
    · exact (hmono _ (hrest.unvisited d hd j hjd)).2 ((hfound.mem_iff j).mp hj)
    · rw [hfound.first] at hic
      obtain rfl := Option.some.inj hic
      exact hlater j (hrest.unvisited d hd j (List.mem_of_mem_head? hjd))

end

/-- The traversals, from the transaction at `position` on. -/
theorem traverseAll_runs {n position : Nat} (hn : n + position = g.txs.length)
    (hlinked : g.Linked) (hclosed : g.VisitedClosed)
    (hbefore : ∀ i < position, g.marked (.tx i) = true) :
    ∃ (found : List (List Nat)) (component : NodeRef → Option UInt32) (enough : Nat),
      (∀ fuel ≥ enough,
        (traverseAll fuel position ((List.range' position n).map .tx)).Runs g.heap
          (found.map (List.map .tx)) { g with component := component }.heap) ∧
      g.FindsAll position (found.filter fun c => !c.isEmpty) := by
  induction n generalizing g position with
  | zero =>
    refine ⟨[], g.component, 0, fun fuel _ => runs_pure _ _, ?_, ?_, ?_, .nil⟩
    · exact fun c hc => absurd hc List.not_mem_nil
    · exact fun c hc => absurd hc List.not_mem_nil
    · exact fun i hi hlt => by omega
  | succ n ih =>
    have hi : position < g.txs.length := by omega
    obtain ⟨found, component, n₁, hruns, hclosed', hvisited, hfound⟩ :=
      traverse_runs hlinked hclosed (UInt32.ofNat position) hi
    have hbefore' : ∀ i < position + 1, { g with component := component }.marked (.tx i) = true := by
      intro i hlt
      rcases Nat.lt_succ_iff_lt_or_eq.mp hlt with hlt | rfl
      · exact (hvisited _).mpr (.inl (hbefore i hlt))
      · exact (hvisited _).mpr (.inr .refl)
    obtain ⟨rest, component', n₂, hrest, hall⟩ :=
      ih (g := { g with component := component }) (by change _ = g.txs.length; omega) hlinked
        hclosed' hbefore'
    refine ⟨found :: rest, component', max n₁ n₂, fun fuel hfuel => ?_, ?_⟩
    · rw [List.range'_succ, List.map_cons]
      exact (hruns fuel (by omega)).bind ((hrest fuel (by omega)).bind (runs_pure _ _))
    · rcases hfound with ⟨hstart, rfl⟩ | ⟨hstart, hfound⟩
      · exact hall.of_visited hclosed hvisited hstart
      · have hcons : (found :: rest).filter (fun c => !c.isEmpty) =
            found :: rest.filter fun c => !c.isEmpty := by
          refine List.filter_cons_of_pos ?_
          have := hfound.first
          cases found with
          | nil => cases this
          | cons _ _ => rfl
        rw [hcons]
        exact hall.cons hlinked hclosed hvisited hbefore hi hstart hfound

end

/-! ## Building the graph -/

namespace Graph

/-- The graph as it is built: nothing has been visited. -/
def fresh (txs : List (TransactionId × List Key)) (touching : Key → List Nat) : Graph :=
  ⟨txs, touching, fun _ => none⟩

/-- The transaction is added to the keys. -/
def touch (i : Nat) : List Key → (Key → List Nat) → Key → List Nat
  | [], touching => touching
  | k :: keys, touching => touch i keys (Function.update touching k (touching k ++ [i]))

theorem touch_eq (i : Nat) (keys : List Key) (touching : Key → List Nat) (k : Key) :
    touch i keys touching k = touching k ++ List.replicate (keys.count k) i := by
  induction keys generalizing touching with
  | nil => rw [touch, List.count_nil, List.replicate_zero, List.append_nil]
  | cons k' keys ih =>
    rw [touch, ih]
    by_cases hk : k' = k
    · subst hk
      rw [Function.update_self, List.count_cons_self, List.append_assoc, List.replicate_succ]
      rfl
    · rw [Function.update_of_ne (fun h => hk h.symm), List.count_cons_of_ne hk]

theorem mem_touch {i j : Nat} {k : Key} {keys : List Key} {touching : Key → List Nat} :
    j ∈ touch i keys touching k ↔ j ∈ touching k ∨ j = i ∧ k ∈ keys := by
  rw [touch_eq, List.mem_append, List.mem_replicate, ← Nat.pos_iff_ne_zero, List.count_pos_iff,
    and_comm]

variable {txs : List (TransactionId × List Key)} {touching : Key → List Nat}

theorem heap_fresh_tx (i : Nat) : (fresh txs touching).heap (.tx i) =
    txs[i]?.map fun t => ⟨Node.newTx t.1 (t.2.map .key), .reading 0⟩ := by
  rw [heap, node, shape, Option.map_map, Option.map_map]
  rfl

theorem heap_fresh_key (txs : List (TransactionId × List Key)) (touching : Key → List Nat) (k : Key) :
    (fresh txs touching).heap (.key k) =
    if touching k = [] then none
    else some ⟨Node.newKey k ((touching k).map .tx), .reading 0⟩ := by
  rw [heap, node, shape]
  change Option.map _ (Option.map _ (if touching k = [] then none else _)) = _
  split <;> rfl

theorem Linked.snoc (h : (fresh txs touching).Linked) (id : TransactionId) (keys : List Key) :
    (fresh (txs ++ [(id, keys)]) (touch txs.length keys touching)).Linked := by
  intro i k
  change i ∈ touch txs.length keys touching k ↔ ∃ t, (txs ++ [(id, keys)])[i]? = some t ∧ k ∈ t.2
  have hi : i ∈ touching k ↔ ∃ t, txs[i]? = some t ∧ k ∈ t.2 := h i k
  rw [mem_touch, hi]
  rcases Nat.lt_trichotomy i txs.length with hlt | rfl | hlt
  · rw [List.getElem?_append_left hlt]
    exact or_iff_left fun hi => by omega
  · simp
  · rw [List.getElem?_eq_none (by omega), List.getElem?_eq_none (by simp; omega)]
    simp only [reduceCtorEq, false_and, exists_false, false_or, iff_false, not_and]
    omega

end Graph

section
variable {txs : List (TransactionId × List Key)} {touching : Key → List Nat}

theorem keyEntry_runs (k : Key) :
    (keyEntry k).Runs (Graph.fresh txs touching).heap (.key k)
      (Function.update (Graph.fresh txs touching).heap (.key k)
        (some ⟨Node.newKey k ((touching k).map .tx), .reading 0⟩)) := by
  have hcell := Graph.heap_fresh_key txs touching k
  refine .bind (get_runs _) ?_
  by_cases hk : touching k = []
  · rw [if_pos hk] at hcell
    rw [hcell, hk]
    exact .bind (asRc_runs ..) (runs_pure _ _)
  · rw [if_neg hk] at hcell
    rw [← hcell, Function.update_eq_self, hcell]
    exact runs_pure _ _

theorem heap_addTx (i : Nat) (k : Key) :
    Function.update (Graph.fresh txs touching).heap (.key k)
        (some ⟨Node.newKey k ((touching k ++ [i]).map .tx), .reading 0⟩) =
      (Graph.fresh txs (Function.update touching k (touching k ++ [i]))).heap := by
  funext r
  cases r with
  | tx j => rw [Function.update_of_ne (by simp), Graph.heap_fresh_tx, Graph.heap_fresh_tx]
  | key k' =>
    by_cases hk : k' = k
    · subst hk
      rw [Function.update_self, Graph.heap_fresh_key, Function.update_self, if_neg (by simp)]
    · rw [Function.update_of_ne (by simpa using hk), Graph.heap_fresh_key, Graph.heap_fresh_key,
        Function.update_of_ne hk]

/-- The transaction is added to the keys of its access list. -/
theorem addToKeys_runs (i : Nat) (keys : List Key) :
    (addToKeys (.tx i) keys).Runs (Graph.fresh txs touching).heap (keys.map .key)
      (Graph.fresh txs (Graph.touch i keys touching)).heap := by
  induction keys generalizing touching with
  | nil => exact runs_pure _ _
  | cons k keys ih =>
    have hadd : ∀ heap, (orPanicH ((Node.newKey k ((touching k).map .tx)).addTx (.tx i))).Runs heap
        (Node.newKey k ((touching k ++ [i]).map .tx)) heap := by
      intro heap
      rw [List.map_append]
      exact orPanicH_runs _ heap
    refine .bind (keyEntry_runs k) ?_
    refine write_runs (Function.update_self ..) hadd ?_
    rw [Function.update_idem, heap_addTx]
    exact .bind ih (runs_pure _ _)

theorem heap_newTx (id : TransactionId) (keys keys' : List Key) :
    Function.update (Graph.fresh (txs ++ [(id, keys)]) touching).heap (.tx txs.length)
        (some ⟨Node.newTx id (keys'.map .key), .reading 0⟩) =
      (Graph.fresh (txs ++ [(id, keys')]) touching).heap := by
  funext r
  cases r with
  | tx j =>
    rw [Graph.heap_fresh_tx]
    by_cases hj : j = txs.length
    · subst hj
      simp
    · rw [Function.update_of_ne (by simpa using hj), Graph.heap_fresh_tx]
      congr 1
      rcases Nat.lt_or_gt_of_ne hj with hlt | hgt
      · rw [List.getElem?_append_left hlt, List.getElem?_append_left hlt]
      · rw [List.getElem?_eq_none (by simp; omega), List.getElem?_eq_none (by simp; omega)]
  | key k => rw [Function.update_of_ne (by simp), Graph.heap_fresh_key, Graph.heap_fresh_key]

theorem heap_asRc (id : TransactionId) :
    Function.update (Graph.fresh txs touching).heap (.tx txs.length)
        (some ⟨Node.newTx id [], .reading 0⟩) =
      (Graph.fresh (txs ++ [(id, [])]) touching).heap := by
  rw [← heap_newTx id [] []]
  funext r
  cases r with
  | tx j =>
    by_cases hj : j = txs.length
    · subst hj
      rw [Function.update_self, Function.update_self]
      rfl
    · rw [Function.update_of_ne (by simpa using hj), Function.update_of_ne (by simpa using hj),
        Graph.heap_fresh_tx, Graph.heap_fresh_tx]
      congr 1
      rcases Nat.lt_or_gt_of_ne hj with hlt | hgt
      · rw [List.getElem?_append_left hlt]
      · rw [List.getElem?_eq_none (by omega), List.getElem?_eq_none (by simp; omega)]
  | key k =>
    rw [Function.update_of_ne (by simp), Function.update_of_ne (by simp), Graph.heap_fresh_key,
      Graph.heap_fresh_key]

/-- The keys are added to the transaction. -/
theorem addKeys_runs (id : TransactionId) (done keys : List Key) :
    (addKeys (.tx txs.length) (keys.map .key)).Runs
      (Graph.fresh (txs ++ [(id, done)]) touching).heap ()
      (Graph.fresh (txs ++ [(id, done ++ keys)]) touching).heap := by
  induction keys generalizing done with
  | nil => rw [List.append_nil]; exact runs_pure _ _
  | cons k keys ih =>
    have hcell : (Graph.fresh (txs ++ [(id, done)]) touching).heap (.tx txs.length) =
        some ⟨Node.newTx id (done.map .key), .reading 0⟩ := by
      rw [Graph.heap_fresh_tx]
      simp
    have hadd : ∀ heap, (orPanicH ((Node.newTx id (done.map .key)).addKey (.key k))).Runs heap
        (Node.newTx id ((done ++ [k]).map .key)) heap := by
      intro heap
      rw [List.map_append]
      exact orPanicH_runs _ heap
    refine write_runs hcell hadd ?_
    rw [heap_newTx]
    have hrest := ih (done ++ [k])
    rw [List.append_assoc] at hrest
    exact hrest

end

section
variable [Ed25519] {txs : List (TransactionId × List Key)} {touching : Key → List Nat}

theorem transactionNode_runs (tx : Transaction) :
    (transactionNode txs.length tx).Runs (Graph.fresh txs touching).heap (.tx txs.length)
      (Graph.fresh (txs ++ [(tx.id, tx.accessList)])
        (Graph.touch txs.length tx.accessList touching)).heap := by
  refine .bind (asRc_runs ..) ?_
  rw [heap_asRc]
  refine .bind (addToKeys_runs txs.length tx.accessList) ?_
  exact .bind (addKeys_runs tx.id [] tx.accessList) (runs_pure _ _)

/-- The transactions of a pool that access the key, by position, each as often as it
does. -/
def Pool.accessing (position : Nat) (txs : Pool) (k : Key) : List Nat :=
  (txs.zipIdx position).flatMap fun tx => List.replicate (tx.1.accessList.count k) tx.2

/-- The graph of a pool is built, and its edges go both ways. -/
theorem transactionNodes_runs (hlinked : (Graph.fresh txs touching).Linked) (pool : Pool) :
    (transactionNodes txs.length pool).Runs (Graph.fresh txs touching).heap
        ((List.range' txs.length pool.length).map .tx)
        (Graph.fresh (txs ++ pool.map fun tx => (tx.id, tx.accessList))
          fun k => touching k ++ pool.accessing txs.length k).heap ∧
      (Graph.fresh (txs ++ pool.map fun tx => (tx.id, tx.accessList))
        fun k => touching k ++ pool.accessing txs.length k).Linked := by
  induction pool generalizing txs touching with
  | nil =>
    have hnone : (fun k => touching k ++ Pool.accessing txs.length [] k) = touching :=
      funext fun k => List.append_nil _
    rw [List.map_nil, List.append_nil, hnone]
    exact ⟨runs_pure _ _, hlinked⟩
  | cons tx pool ih =>
    obtain ⟨hruns, hlinked'⟩ := ih (hlinked.snoc tx.id tx.accessList)
    have htouching : (fun k => Graph.touch txs.length tx.accessList touching k ++
        Pool.accessing (txs ++ [(tx.id, tx.accessList)]).length pool k) =
          fun k => touching k ++ Pool.accessing txs.length (tx :: pool) k := by
      funext k
      rw [Graph.touch_eq, List.append_assoc, List.length_append, List.length_singleton]
      rfl
    rw [htouching, List.append_assoc] at hruns hlinked'
    rw [List.length_append, List.length_singleton] at hruns
    refine ⟨?_, hlinked'⟩
    rw [List.length_cons, List.range'_succ, List.map_cons]
    exact .bind (transactionNode_runs tx) (.bind hruns (runs_pure _ _))

end

/-! ## The classes of a pool -/

section
variable [Ed25519]

/-- The transactions at the two positions share a key of their access lists. -/
def Pool.SharesKey (txs : Pool) (i j : Nat) : Prop :=
  ∃ t t', txs[i]? = some t ∧ txs[j]? = some t' ∧ ∃ k ∈ t.accessList, k ∈ t'.accessList

/-- There is a chain of transactions in which neighbours share a key. -/
def Pool.Linked (txs : Pool) : Nat → Nat → Prop := Relation.ReflTransGen txs.SharesKey

theorem Pool.Linked.symm {txs : Pool} {i j : Nat} (h : txs.Linked i j) : txs.Linked j i := by
  induction h with
  | refl => exact .refl
  | tail _ hshare ih =>
    obtain ⟨t, t', ht, ht', k, hk, hk'⟩ := hshare
    exact .head ⟨t', t, ht', ht, k, hk', hk⟩ ih

theorem Pool.Linked.lt_length {txs : Pool} {i j : Nat} (hi : i < txs.length)
    (h : txs.Linked i j) : j < txs.length := by
  induction h with
  | refl => exact hi
  | tail _ hshare ih =>
    obtain ⟨t, t', ht, ht', k, hk, hk'⟩ := hshare
    exact (List.getElem?_eq_some_iff.mp ht').1

/-- The classes of the relation on the positions of the pool, each once, as a list
without duplicates that starts with its first transaction. -/
structure Pool.AreClasses (txs : Pool) (related : Nat → Nat → Prop) (classes : List (List Nat)) :
    Prop where
  nodup : ∀ c ∈ classes, c.Nodup
  mem_iff : ∀ c ∈ classes, ∀ i ∈ c, ∀ j, j ∈ c ↔ j < txs.length ∧ related i j
  covers : ∀ i < txs.length, ∃ c ∈ classes, i ∈ c
  disjoint : classes.Pairwise List.Disjoint
  first : ∀ c ∈ classes, ∃ i, c.head? = some i ∧ ∀ j ∈ c, i ≤ j
  ordered : classes.Pairwise fun c d => ∀ i ∈ c.head?, ∀ j ∈ d.head?, i < j

/-- The graph of the pool. -/
def Graph.ofPool (txs : Pool) (touching : Key → List Nat) : Graph :=
  .fresh (txs.map fun tx => (tx.id, tx.accessList)) touching

variable {txs : Pool} {touching : Key → List Nat}

theorem mem_next_tx {i : Nat} {r : NodeRef} : r ∈ (Graph.ofPool txs touching).next (.tx i) ↔
    ∃ t, txs[i]? = some t ∧ ∃ k ∈ t.accessList, .key k = r := by
  rw [Graph.next]
  change r ∈ (((txs.map fun tx => (tx.id, tx.accessList))[i]?).map _).getD [] ↔ _
  rw [List.getElem?_map]
  cases txs[i]? with
  | none => simp
  | some t => simp

/-- What can be reached from a transaction is linked to it, or a key of what is. -/
theorem linked_of_reach (hlinked : (Graph.ofPool txs touching).Linked) {i : Nat} {r : NodeRef}
    (h : GraphSearch.Reach (Graph.ofPool txs touching).next (.tx i) r) :
    match r with
    | .tx j => txs.Linked i j
    | .key k => ∃ j t, txs.Linked i j ∧ txs[j]? = some t ∧ k ∈ t.accessList := by
  induction h with
  | refl => exact .refl
  | @tail a b _ hedge ih =>
    cases a with
    | tx j =>
      obtain ⟨t, ht, k, hk, rfl⟩ := mem_next_tx.mp hedge
      exact ⟨j, t, ih, ht, hk⟩
    | key k =>
      obtain ⟨j, t, hj, ht, hk⟩ := ih
      obtain ⟨j', hj', rfl⟩ := List.mem_map.mp hedge
      have hback := hlinked.next_symm (.key k) (.tx j') hedge
      obtain ⟨t', ht', k', hk', he⟩ := mem_next_tx.mp hback
      obtain rfl := NodeRef.key.inj he
      exact hj.tail ⟨t, t', ht, ht', k', hk, hk'⟩

theorem reach_iff (hlinked : (Graph.ofPool txs touching).Linked) (i j : Nat) :
    GraphSearch.Reach (Graph.ofPool txs touching).next (.tx i) (.tx j) ↔ txs.Linked i j := by
  refine ⟨linked_of_reach hlinked, fun h => ?_⟩
  induction h with
  | refl => exact .refl
  | tail _ hshare ih =>
    obtain ⟨t, t', ht, ht', k, hk, hk'⟩ := hshare
    have hto : .key k ∈ (Graph.ofPool txs touching).next (.tx _) :=
      mem_next_tx.mpr ⟨t, ht, k, hk, rfl⟩
    have hfrom : .key k ∈ (Graph.ofPool txs touching).next (.tx _) :=
      mem_next_tx.mpr ⟨t', ht', k, hk', rfl⟩
    exact (ih.tail hto).tail (hlinked.next_symm _ _ hfrom)

/-- What the traversals find are the classes of linked transactions. -/
theorem Graph.FindsAll.areClasses (hlinked : (Graph.ofPool txs touching).Linked)
    {classes : List (List Nat)} (h : (Graph.ofPool txs touching).FindsAll 0 classes) :
    txs.AreClasses txs.Linked classes := by
  have hlength : (Graph.ofPool txs touching).txs.length = txs.length := List.length_map ..
  refine ⟨fun c hc => ?_, fun c hc i hi j => ?_, fun i hi => ?_, ?_, fun c hc => ?_, ?_⟩
  · obtain ⟨i, -, hfound, -⟩ := h.starts c hc
    exact hfound.nodup
  · obtain ⟨s, hs, hfound, -⟩ := h.starts c hc
    have hsi := (reach_iff hlinked s i).mp ((hfound.mem_iff i).mp hi)
    rw [hfound.mem_iff, reach_iff hlinked]
    exact ⟨fun hsj => ⟨Pool.Linked.lt_length (hlength ▸ hs) hsj, hsi.symm.trans hsj⟩,
      fun hij => hsi.trans hij.2⟩
  · exact h.covers i (Nat.zero_le i) (hlength.symm ▸ hi) rfl
  · exact h.ordered.imp And.left
  · obtain ⟨i, -, hfound, hfirst⟩ := h.starts c hc
    exact ⟨i, hfound.first, hfirst⟩
  · exact h.ordered.imp And.right

theorem Pool.transactionNodes_runs (txs : Pool) :
    (transactionNodes 0 txs).Runs .empty ((List.range' 0 txs.length).map .tx)
        (Graph.ofPool txs (txs.accessing 0)).heap ∧
      (Graph.ofPool txs (txs.accessing 0)).Linked := by
  have hempty : Heap.empty = (Graph.fresh [] fun _ => []).heap := by
    funext r
    cases r <;> rfl
  have hnone : (Graph.fresh [] fun _ => []).Linked := by
    intro i k
    simp [Graph.fresh]
  rw [hempty]
  exact SonicChain.transactionNodes_runs hnone txs

/-- **The member lists of the components are the classes of linked transactions.** -/
theorem connectedComponents_runs (txs : Pool) :
    ∃ (classes : List (List Nat)) (touching : Key → List Nat) (component : NodeRef → Option UInt32)
      (enough : Nat), txs.AreClasses txs.Linked classes ∧
      ∀ fuel ≥ enough, (connectedComponents fuel txs).Runs .empty (classes.map (List.map .tx))
        { Graph.ofPool txs touching with component := component }.heap := by
  obtain ⟨hbuild, hlinked⟩ := txs.transactionNodes_runs
  set touching := txs.accessing 0
  have hlength : (Graph.ofPool txs touching).txs.length = txs.length := List.length_map ..
  have hall : txs.length + 0 = (Graph.ofPool txs touching).txs.length := hlength.symm
  obtain ⟨found, component, enough, hruns, hfinds⟩ :=
    traverseAll_runs (g := Graph.ofPool txs touching) hall hlinked (fun a ha => by cases ha)
      (fun i hi => by omega)
  refine ⟨_, touching, component, enough, hfinds.areClasses hlinked, fun fuel hfuel => ?_⟩
  refine .bind hbuild (.bind (hruns fuel hfuel) ?_)
  have hfilter : (found.map (List.map NodeRef.tx)).filter (fun c => !c.isEmpty) =
      (found.filter fun c => !c.isEmpty).map (List.map .tx) := by
    rw [List.filter_map]
    congr 2
    funext c
    exact congrArg not List.isEmpty_map
  rw [hfilter]
  exact runs_pure _ _

end
/-! ## Any search ends -/

theorem Heap.isSome_component (heap : Heap) (r : NodeRef) :
    (heap.component r).isSome = heap.marked r := by
  rw [component, marked]
  cases heap r <;> rfl

/-- **A traversal ends**, in any finite graph of which some nodes are marked, and has
then marked all that can be reached through nodes that were not. -/
theorem traverse_ends {heap : Heap} (hwf : heap.WellFormed)
    (hfinite : {r | (heap r).isSome}.Finite) {start : NodeRef} (hstart : (heap start).isSome)
    (componentId : UInt32) :
    ∃ (found : List NodeRef) (component : NodeRef → Option UInt32) (enough : Nat),
      (∀ fuel ≥ enough,
        (traverse fuel start componentId).Runs heap found (heap.mark component)) ∧
      ∀ x, Relation.ReflTransGen (GraphSearch.Through heap.next heap.marked start) start x →
        (heap.mark component).marked x = true := by
  have hclosed : ∀ a ∈ hfinite.toFinset, ∀ b ∈ heap.next a, b ∈ hfinite.toFinset := by
    intro a _ b hb
    exact hfinite.mem_toFinset.mpr (hwf.alive a b hb)
  have hmarked : (fun x => (heap.component x).isSome) = heap.marked :=
    funext heap.isSome_component
  have hbegin : Heap.progress heap.component [start] [] = GraphSearch.begin heap.marked start := by
    rw [Heap.progress, hmarked]
    rfl
  have halive : ∀ x ∈ [start], (heap x).isSome := by
    intro x hx
    rw [List.mem_singleton.mp hx]
    exact hstart
  obtain ⟨n, hdone⟩ := GraphSearch.exists_iterate_done hclosed
    (Heap.progress heap.component [start] []) fun x hx => hfinite.mem_toFinset.mpr (halive x hx)
  obtain ⟨component, hruns, hmarks⟩ := hwf.traverseLoop_runs heap.isTx
    (fun r cell hr => by rw [Heap.isTx, hr]; rfl) componentId halive hdone
  rw [heap.mark_component] at hruns
  refine ⟨_, component, n, hruns, fun x hx => ?_⟩
  have hcovers := (GraphSearch.Covers.begin heap.next heap.marked start).iterate n
  rw [hbegin] at hmarks hdone
  have hx' := hcovers.marked_of_reach hdone hx
  rw [← hmarks] at hx'
  have hxAlive : (heap x).isSome := by
    induction hx with
    | refl => exact hstart
    | tail _ hedge _ => exact hwf.alive _ _ hedge.1
  rw [Heap.marked_mark hxAlive]
  exact hx'

/-- Two transactions with a key in common, which the first accesses twice.  The first
has been visited. -/
def twice : Graph where
  txs := [(7, [[1], [1]]), (8, [[1]])]
  touching := Graph.touch 1 [[1]] (Graph.touch 0 [[1], [1]] fun _ => [])
  component := Function.update (fun _ => none) (.tx 0) (some 1)

theorem twice_linked : twice.Linked :=
  have hnone : (Graph.fresh [] fun _ => []).Linked := fun i k => by simp [Graph.fresh]
  (hnone.snoc 7 [[1], [1]]).snoc 8 [[1]]

theorem traverse_ends_twice :
    ∃ (found : List NodeRef) (component : NodeRef → Option UInt32) (enough : Nat),
      (∀ fuel ≥ enough,
        (traverse fuel (.tx 0) 2).Runs twice.heap found (twice.heap.mark component)) ∧
      ∀ x, Relation.ReflTransGen (GraphSearch.Through twice.heap.next twice.heap.marked (.tx 0))
        (.tx 0) x → (twice.heap.mark component).marked x = true :=
  traverse_ends twice_linked.wellFormed twice_linked.finite_alive rfl 2

end SonicChain
