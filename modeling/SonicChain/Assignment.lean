import SonicChain.ConnectedComponents
import Mathlib.Data.List.Perm.Basic

/-! # Assigning the classes to workers

Each class goes whole to one worker, and each transaction is tagged with the worker
that its class went to (`distribute_by_connectivity`).
-/

namespace SonicChain

/-! ## The greatest and the least -/

section
variable {A : Type} {key : A → Nat}

theorem foldl_choose_mem (choose : A → A → Bool) (x : A) (xs : List A) :
    xs.foldl (fun best y => if choose best y then y else best) x ∈ x :: xs := by
  induction xs generalizing x with
  | nil => exact List.mem_cons_self ..
  | cons y xs ih =>
    rw [List.foldl_cons]
    rcases List.mem_cons.mp (ih (if choose x y then y else x)) with h | h
    · rw [h]
      split
      · exact List.mem_cons_of_mem _ (List.mem_cons_self ..)
      · exact List.mem_cons_self ..
    · exact List.mem_cons_of_mem _ (List.mem_cons_of_mem _ h)

/-- Where each choice is for the greater, the greatest is left. -/
theorem foldl_choose_greatest (choose : A → A → Bool) (le : A → A → Prop) (hrefl : ∀ a, le a a)
    (htrans : ∀ a b c, le a b → le b c → le a c) (hyes : ∀ a b, choose a b = true → le a b)
    (hno : ∀ a b, choose a b = false → le b a) (x : A) (xs : List A) :
    ∀ y ∈ x :: xs, le y (xs.foldl (fun best y => if choose best y then y else best) x) := by
  induction xs generalizing x with
  | nil =>
    intro y hy
    rw [List.mem_singleton.mp hy]
    exact hrefl x
  | cons z xs ih =>
    intro y hy
    rw [List.foldl_cons]
    cases hchoose : choose x z with
    | true =>
      have hbest := ih z
      rcases List.mem_cons.mp hy with rfl | hy
      · exact htrans _ _ _ (hyes _ _ hchoose) (hbest z (List.mem_cons_self ..))
      · exact hbest y hy
    | false =>
      have hbest := ih x
      rcases List.mem_cons.mp hy with rfl | hy
      · exact hbest y (List.mem_cons_self ..)
      rcases List.mem_cons.mp hy with rfl | hy
      · exact htrans _ _ _ (hno _ _ hchoose) (hbest x (List.mem_cons_self ..))
      · exact hbest y (List.mem_cons_of_mem _ hy)

theorem exists_maxByKey (key : A → Nat) {l : List A} (h : l ≠ []) :
    ∃ x ∈ l, maxByKey key l = some x ∧ ∀ y ∈ l, key y ≤ key x := by
  cases l with
  | nil => exact absurd rfl h
  | cons x xs =>
    have hmem := foldl_choose_mem (fun best y => decide (key best ≤ key y)) x xs
    have hmax := foldl_choose_greatest (fun best y => decide (key best ≤ key y))
      (fun a b => key a ≤ key b) (fun a => Nat.le_refl _) (fun a b c => Nat.le_trans)
      (fun a b hab => of_decide_eq_true hab)
      (fun a b hab => Nat.le_of_lt (Nat.lt_of_not_le (of_decide_eq_false hab))) x xs
    simp only [decide_eq_true_eq] at hmem hmax
    exact ⟨_, hmem, rfl, hmax⟩

theorem exists_minByKey (key : A → Nat) {l : List A} (h : l ≠ []) :
    ∃ x ∈ l, minByKey key l = some x ∧ ∀ y ∈ l, key x ≤ key y := by
  cases l with
  | nil => exact absurd rfl h
  | cons x xs =>
    have hmem := foldl_choose_mem (fun best y => decide (key y < key best)) x xs
    have hmin := foldl_choose_greatest (fun best y => decide (key y < key best))
      (fun a b => key b ≤ key a) (fun a => Nat.le_refl _)
      (fun a b c hab hbc => Nat.le_trans hbc hab)
      (fun a b hab => Nat.le_of_lt (of_decide_eq_true hab))
      (fun a b hab => Nat.le_of_not_lt (of_decide_eq_false hab)) x xs
    simp only [decide_eq_true_eq] at hmem hmin
    exact ⟨_, hmem, rfl, hmin⟩

end

theorem split_of_mem_zipIdx {A : Type} {l : List A} {x : A} {i : Nat} (h : (x, i) ∈ l.zipIdx) :
    ∃ front back, l = front ++ x :: back ∧ front.length = i := by
  obtain ⟨hi, rfl⟩ := List.getElem?_eq_some_iff.mp (List.mk_mem_zipIdx_iff_getElem?.mp h)
  refine ⟨l.take i, l.drop (i + 1), ?_, List.length_take_of_le (Nat.le_of_lt hi)⟩
  rw [← List.drop_eq_getElem_cons hi, List.take_append_drop]

/-! ## Classes go whole to one worker -/

/-- The components have gone to the workers. -/
structure Dealt (components : List (List NodeRef)) (workers workers' : ComponentWorkers) :
    Prop where
  whole : ∀ c ∈ components, ∃ w ∈ workers', c ⊆ w.2
  kept : ∀ w ∈ workers, ∃ w' ∈ workers', w.2 ⊆ w'.2
  ids : workers'.map Prod.fst = workers.map Prod.fst
  perm : List.Perm (workers'.flatMap Prod.snd) (workers.flatMap Prod.snd ++ components.flatten)

theorem Dealt.refl (workers : ComponentWorkers) : Dealt [] workers workers where
  whole c hc := absurd hc List.not_mem_nil
  kept w hw := ⟨w, hw, fun _ h => h⟩
  ids := rfl
  perm := by rw [List.flatten_nil, List.append_nil]

/-- The largest component goes to a worker, and then the others go. -/
theorem Dealt.step {before after : List (List NodeRef)} {c : List NodeRef}
    {front back workers' : ComponentWorkers} {w : ThreadId × List NodeRef}
    (h : Dealt (before ++ after) (front ++ (w.1, w.2 ++ c) :: back) workers') :
    Dealt (before ++ c :: after) (front ++ w :: back) workers' := by
  obtain ⟨w', hw', hsub⟩ := h.kept (w.1, w.2 ++ c)
    (List.mem_append_right _ (List.mem_cons_self ..))
  refine ⟨fun d hd => ?_, fun v hv => ?_, ?_, ?_⟩
  · rcases List.mem_append.mp hd with hd | hd
    · exact h.whole d (List.mem_append_left _ hd)
    rcases List.mem_cons.mp hd with rfl | hd
    · exact ⟨w', hw', fun r hr => hsub (List.mem_append_right _ hr)⟩
    · exact h.whole d (List.mem_append_right _ hd)
  · rcases List.mem_append.mp hv with hv | hv
    · exact h.kept v (List.mem_append_left _ hv)
    rcases List.mem_cons.mp hv with rfl | hv
    · exact ⟨w', hw', fun r hr => hsub (List.mem_append_left _ hr)⟩
    · exact h.kept v (List.mem_append_right _ (List.mem_cons_of_mem _ hv))
  · rw [h.ids]
    simp
  · refine h.perm.trans (List.perm_iff_count.mpr fun r => ?_)
    simp only [List.flatMap_append, List.flatMap_cons, List.flatten_append, List.flatten_cons,
      List.count_append]
    omega

/-- **One iteration**: a largest component goes to a worker that has least. -/
theorem assignComponents_succ {components : List (List NodeRef)} {workers : ComponentWorkers}
    (hcomponents : components ≠ []) (hworkers : workers ≠ []) :
    ∃ before c after front w back, components = before ++ c :: after ∧
      workers = front ++ w :: back ∧ (∀ d ∈ components, d.length ≤ c.length) ∧
      (∀ v ∈ workers, w.2.length ≤ v.2.length) ∧
      ∀ fuel, assignComponents (fuel + 1) components workers =
        if before ++ after = [] then return ([], front ++ (w.1, w.2 ++ c) :: back)
        else assignComponents fuel (before ++ after) (front ++ (w.1, w.2 ++ c) :: back) := by
  obtain ⟨⟨c, index⟩, hc, hmax, hgreatest⟩ := exists_maxByKey
    (fun c : List NodeRef × Nat => c.1.length) (l := components.zipIdx)
    (by simpa using hcomponents)
  obtain ⟨⟨w, place⟩, hw, hmin, hleast⟩ := exists_minByKey
    (fun w : (ThreadId × List NodeRef) × Nat => w.1.2.length) (l := workers.zipIdx)
    (by simpa using hworkers)
  have hlargest : ∀ d ∈ components, d.length ≤ c.length := by
    intro d hd
    obtain ⟨i, hi⟩ := List.mem_iff_getElem?.mp hd
    exact hgreatest (d, i) (List.mk_mem_zipIdx_iff_getElem?.mpr hi)
  have hsmallest : ∀ v ∈ workers, w.2.length ≤ v.2.length := by
    intro v hv
    obtain ⟨i, hi⟩ := List.mem_iff_getElem?.mp hv
    exact hleast (v, i) (List.mk_mem_zipIdx_iff_getElem?.mpr hi)
  obtain ⟨before, after, rfl, rfl⟩ := split_of_mem_zipIdx hc
  obtain ⟨front, back, rfl, rfl⟩ := split_of_mem_zipIdx hw
  have herase : (before ++ c :: after).eraseIdx before.length = before ++ after := by
    rw [List.eraseIdx_append_of_length_le (Nat.le_refl _), Nat.sub_self]
    rfl
  have hset : (front ++ w :: back).set front.length (w.1, w.2 ++ c) =
      front ++ (w.1, w.2 ++ c) :: back := by
    rw [List.set_append_right _ _ (Nat.le_refl _), Nat.sub_self]
    rfl
  refine ⟨before, c, after, front, w, back, rfl, rfl, hlargest, hsmallest, fun fuel => ?_⟩
  rw [assignComponents, hmax, hmin]
  simp only [hset, herase, List.length_eq_zero_iff]
  split
  case isTrue hnil => rw [hnil]
  case isFalse => rfl

/-- The loop ends, and has assigned all components. -/
theorem assignComponents_runs {n : Nat} {components : List (List NodeRef)}
    {workers : ComponentWorkers} (hn : components.length ≤ n) (hcomponents : components ≠ [])
    (hworkers : workers ≠ []) (heap : Heap) :
    ∃ workers', Dealt components workers workers' ∧ ∀ fuel ≥ n,
      (assignComponents fuel components workers).Runs heap ([], workers') heap := by
  induction n generalizing components workers with
  | zero => exact absurd (List.length_eq_zero_iff.mp (by omega)) hcomponents
  | succ n ih =>
    obtain ⟨before, c, after, front, w, back, rfl, rfl, -, -, hstep⟩ :=
      assignComponents_succ hcomponents hworkers
    rw [List.length_append, List.length_cons] at hn
    by_cases hrest : before ++ after = []
    · refine ⟨_, Dealt.step (by rw [hrest]; exact .refl _), fun fuel hfuel => ?_⟩
      obtain ⟨fuel, rfl⟩ := Nat.exists_eq_succ_of_ne_zero (n := fuel) (by omega)
      rw [hstep, if_pos hrest]
      exact runs_pure _ _
    · have hfront : front ++ (w.1, w.2 ++ c) :: back ≠ [] := by simp
      obtain ⟨workers', hassigned, hruns⟩ :=
        ih (by rw [List.length_append]; omega) hrest hfront
      refine ⟨workers', hassigned.step, fun fuel hfuel => ?_⟩
      obtain ⟨fuel, rfl⟩ := Nat.exists_eq_succ_of_ne_zero (n := fuel) (by omega)
      rw [hstep, if_neg hrest]
      exact hruns fuel (by omega)

/-! ## The workers -/

theorem mem_insert {worker : ThreadId} {w : ThreadId × List NodeRef} {workers : ComponentWorkers}
    (h : w ∈ ComponentWorkers.insert worker [] workers) : w = (worker, []) ∨ w ∈ workers := by
  induction workers with
  | nil => exact .inl (List.mem_singleton.mp h)
  | cons v workers ih =>
    obtain ⟨id, nodes⟩ := v
    rw [ComponentWorkers.insert] at h
    split at h
    · exact List.mem_cons.mp h
    split at h
    · rcases List.mem_cons.mp h with h | h
      · exact .inl h
      · exact .inr (List.mem_cons_of_mem _ h)
    · rcases List.mem_cons.mp h with rfl | h
      · exact .inr (List.mem_cons_self ..)
      · exact (ih h).imp_right (List.mem_cons_of_mem _)

theorem insert_ne_nil (worker : ThreadId) (nodes : List NodeRef) (workers : ComponentWorkers) :
    ComponentWorkers.insert worker nodes workers ≠ [] := by
  cases workers with
  | nil => exact List.cons_ne_nil _ _
  | cons v workers =>
    obtain ⟨id, nodes⟩ := v
    rw [ComponentWorkers.insert]
    split
    · exact List.cons_ne_nil _ _
    split <;> exact List.cons_ne_nil _ _

/-- Each worker starts with nothing. -/
theorem mem_foldl_insert {ids : List ThreadId} {workers : ComponentWorkers}
    {w : ThreadId × List NodeRef}
    (h : w ∈ ids.foldl (fun m i => ComponentWorkers.insert i [] m) workers) :
    w ∈ workers ∨ w.1 ∈ ids ∧ w.2 = [] := by
  induction ids generalizing workers with
  | nil => exact .inl h
  | cons i ids ih =>
    rcases ih h with h | ⟨h, hnil⟩
    · rcases mem_insert h with rfl | h
      · exact .inr ⟨List.mem_cons_self .., rfl⟩
      · exact .inl h
    · exact .inr ⟨List.mem_cons_of_mem _ h, hnil⟩

theorem foldl_insert_ne_nil {ids : List ThreadId} (workers : ComponentWorkers)
    (h : ids ≠ [] ∨ workers ≠ []) :
    ids.foldl (fun m i => ComponentWorkers.insert i [] m) workers ≠ [] := by
  induction ids generalizing workers with
  | nil => exact h.resolve_left (fun h => h rfl)
  | cons i ids ih => exact ih _ (.inr (insert_ne_nil i [] workers))

/-! ## Tags -/

section
variable [Ed25519]

/-- The pool with tags by position. -/
def Pool.retag (tag : Nat → ExecutionTag) (txs : Pool) : Pool :=
  txs.mapIdx fun i t => { t with tag := tag i }

theorem Pool.exists_retag_eq (txs : Pool) : ∃ tag, txs.retag tag = txs := by
  refine ⟨fun i => (txs[i]?.map Transaction.tag).getD .notExecuted, List.ext_getElem? fun i => ?_⟩
  rw [Pool.retag, List.getElem?_mapIdx]
  cases ht : txs[i]? with
  | none => rfl
  | some t => simp

theorem Pool.modifyFirst_of_unique {search : Transaction → Bool}
    (change : Transaction → Transaction) {txs : Pool} {i : Nat} {t : Transaction}
    (ht : txs[i]? = some t) (hsearch : search t = true)
    (honly : ∀ j t', txs[j]? = some t' → search t' = true → j = i) :
    Pool.modifyFirst search change txs = .ok (txs.modify i change) := by
  induction txs generalizing i with
  | nil => cases ht
  | cons u txs ih =>
    rw [Pool.modifyFirst]
    cases i with
    | zero =>
      obtain rfl := Option.some.inj ht
      rw [if_pos hsearch]
      rfl
    | succ i =>
      have hu : ¬ search u = true := fun h => by
        have := honly 0 u rfl h
        omega
      have hrest := ih (i := i) ht fun j t' hj h => by
        have := honly (j + 1) t' hj h
        omega
      rw [if_neg hu, hrest]
      rfl

theorem Pool.retag_modify (tag : Nat → ExecutionTag) (txs : Pool) (i : Nat) (worker : ThreadId) :
    (txs.retag tag).modify i (fun t => { t with tag := .done worker }) =
      txs.retag (Function.update tag i (.done worker)) := by
  refine List.ext_getElem? fun j => ?_
  rw [List.getElem?_modify, Pool.retag, Pool.retag, List.getElem?_mapIdx, List.getElem?_mapIdx]
  by_cases hj : i = j
  · subst hj
    rw [Function.update_self]
    cases txs[i]? with
    | none => rfl
    | some t => simp
  · rw [Function.update_of_ne (fun h => hj h.symm)]
    cases txs[j]? with
    | none => rfl
    | some t => simp [hj]

/-- The heap names the transactions of the pool. -/
def Names (heap : Heap) (txs : Pool) : Prop :=
  ∀ i t, txs[i]? = some t → ∃ node, heap (.tx i) = some ⟨node, .reading 0⟩ ∧ node.nodeType = .tx t.id

theorem Graph.names (txs : Pool) (touching : Key → List Nat) (component : NodeRef → Option UInt32) :
    Names { Graph.ofPool txs touching with component := component }.heap txs := by
  intro i t ht
  refine ⟨⟨.tx t.id, some (t.accessList.map .key), none, component (.tx i)⟩, ?_, rfl⟩
  rw [Graph.heap, Graph.node, Graph.shape]
  change Option.map _ (Option.map _ (Option.map _ (txs.map fun tx => (tx.id, tx.accessList))[i]?)) = _
  rw [List.getElem?_map, ht]
  rfl

variable {txs : Pool} {heap : Heap}

theorem tagTransactions_runs (hids : (txs.map Transaction.id).Nodup) (hnames : Names heap txs)
    (worker : ThreadId) {refs : List NodeRef} (hrefs : ∀ r ∈ refs, ∃ i < txs.length, r = .tx i)
    (tag : Nat → ExecutionTag) :
    (tagTransactions worker refs (txs.retag tag)).Runs heap
      (txs.retag fun i => if .tx i ∈ refs then .done worker else tag i) heap := by
  induction refs generalizing tag with
  | nil =>
    simp only [List.not_mem_nil, ↓reduceIte]
    exact runs_pure _ _
  | cons r refs ih =>
    obtain ⟨i, hi, rfl⟩ := hrefs r (List.mem_cons_self ..)
    obtain ⟨node, hcell, htype⟩ := hnames i txs[i] (List.getElem?_eq_getElem hi)
    have hretag : (txs.retag tag)[i]? = some { txs[i] with tag := tag i } := by
      rw [Pool.retag, List.getElem?_mapIdx, List.getElem?_eq_getElem hi]
      rfl
    have honly : ∀ j t', (txs.retag tag)[j]? = some t' → (t'.id == txs[i].id) = true → j = i := by
      intro j t' hj he
      rw [Pool.retag, List.getElem?_mapIdx] at hj
      obtain ⟨t, ht, rfl⟩ := Option.map_eq_some_iff.mp hj
      obtain ⟨hjlt, rfl⟩ := List.getElem?_eq_some_iff.mp ht
      have hj : j < (txs.map Transaction.id).length := by rwa [List.length_map]
      have hi : i < (txs.map Transaction.id).length := by rwa [List.length_map]
      have hid : (txs.map Transaction.id)[j] = (txs.map Transaction.id)[i] := by
        simpa using he
      exact hids.getElem_inj_iff.mp hid
    have hmodify := Pool.modifyFirst_of_unique (fun t => { t with tag := .done worker }) hretag
      (by simp) honly
    rw [Pool.retag_modify] at hmodify
    refine .bind (borrow_runs hcell) (.bind (release_borrowed_runs hcell) ?_)
    simp only [htype, hmodify]
    refine .bind (orPanicH_runs _ heap) ?_
    have hrest := ih (fun r hr => hrefs r (List.mem_cons_of_mem _ hr))
      (Function.update tag i (.done worker))
    have htags : (fun j => if NodeRef.tx j ∈ refs then .done worker
        else Function.update tag i (ExecutionTag.done worker) j) =
          fun j => if NodeRef.tx j ∈ NodeRef.tx i :: refs then .done worker else tag j := by
      funext j
      by_cases hj : j = i
      · subst hj; simp
      · simp [hj]
    rwa [htags] at hrest

/-- The tags after the workers' transactions have been tagged. -/
def tagged : ComponentWorkers → (Nat → ExecutionTag) → Nat → ExecutionTag
  | [], tag => tag
  | w :: workers, tag => tagged workers fun i => if .tx i ∈ w.2 then .done w.1 else tag i

theorem tagAll_runs (hids : (txs.map Transaction.id).Nodup) (hnames : Names heap txs)
    {workers : ComponentWorkers}
    (hrefs : ∀ r ∈ workers.flatMap Prod.snd, ∃ i < txs.length, r = .tx i)
    (tag : Nat → ExecutionTag) :
    (tagAll workers (txs.retag tag)).Runs heap (txs.retag (tagged workers tag)) heap := by
  induction workers generalizing tag with
  | nil => exact runs_pure _ _
  | cons w workers ih =>
    rw [List.flatMap_cons] at hrefs
    refine .bind (tagTransactions_runs hids hnames w.1
      (fun r hr => hrefs r (List.mem_append_left _ hr)) tag) ?_
    exact ih (fun r hr => hrefs r (List.mem_append_right _ hr)) _

omit [Ed25519] in
theorem tagged_of_not_mem {workers : ComponentWorkers} {i : Nat}
    (h : NodeRef.tx i ∉ workers.flatMap Prod.snd) (tag : Nat → ExecutionTag) :
    tagged workers tag i = tag i := by
  induction workers generalizing tag with
  | nil => rfl
  | cons w workers ih =>
    rw [List.flatMap_cons, List.mem_append, not_or] at h
    rw [tagged, ih h.2, if_neg h.1]

omit [Ed25519] in
/-- Each transaction is tagged with the worker that has it. -/
theorem tagged_of_mem {workers : ComponentWorkers} (hnodup : (workers.flatMap Prod.snd).Nodup)
    {w : ThreadId × List NodeRef} (hw : w ∈ workers) {i : Nat} (hi : .tx i ∈ w.2)
    (tag : Nat → ExecutionTag) : tagged workers tag i = .done w.1 := by
  induction workers generalizing tag with
  | nil => cases hw
  | cons v workers ih =>
    rw [List.flatMap_cons] at hnodup
    obtain ⟨-, hrest, hdisjoint⟩ := List.nodup_append.mp hnodup
    rw [tagged]
    rcases List.mem_cons.mp hw with rfl | hw
    · have hnot : NodeRef.tx i ∉ workers.flatMap Prod.snd := fun h => hdisjoint _ hi _ h rfl
      rw [tagged_of_not_mem hnot, if_pos hi]
    · exact ih hrest hw _

/-! ## Distribution -/

theorem Pool.AreClasses.flatten_perm {related : Nat → Nat → Prop} {classes : List (List Nat)}
    (h : txs.AreClasses related classes) :
    List.Perm classes.flatten (List.range txs.length) := by
  refine (List.perm_ext_iff_of_nodup ?_ List.nodup_range).mpr fun i => ?_
  · exact List.nodup_flatten.mpr ⟨h.nodup, h.disjoint⟩
  · rw [List.mem_flatten, List.mem_range]
    constructor
    · rintro ⟨c, hc, hi⟩
      exact ((h.mem_iff c hc i hi i).mp hi).1
    · exact h.covers i

section
variable {classes : List (List Nat)} {workerIds : List ThreadId} {workers workers' : ComponentWorkers}

/-- What the workers have been dealt. -/
theorem Dealt.classes_perm (hdealt : Dealt (classes.map (List.map .tx)) workers workers')
    (hclasses : txs.AreClasses txs.Linked classes) (hnil : ∀ w ∈ workers, w.2 = []) :
    List.Perm (workers'.flatMap Prod.snd) (classes.flatten.map .tx) ∧
      (workers'.flatMap Prod.snd).Nodup := by
  have hperm := hdealt.perm
  rw [List.flatMap_eq_nil_iff.mpr hnil, List.nil_append, ← List.map_flatten] at hperm
  refine ⟨hperm, hperm.nodup_iff.mpr ?_⟩
  exact (hclasses.flatten_perm.nodup_iff.mpr List.nodup_range).map fun a b h => NodeRef.tx.inj h

/-- A class has gone to one worker, and so its transactions have one tag. -/
theorem Dealt.exists_worker (hdealt : Dealt (classes.map (List.map .tx)) workers workers')
    (hclasses : txs.AreClasses txs.Linked classes) (hworkers : workerIds ≠ [])
    (hstart : ∀ w ∈ workers, w.1 ∈ workerIds ∧ w.2 = []) :
    ∃ worker : Nat → ThreadId, (∀ i, worker i ∈ workerIds) ∧
      (∀ i < txs.length, ∀ j, txs.Linked i j → worker i = worker j) ∧
      ∀ tag, txs.retag (tagged workers' tag) =
        txs.mapIdx fun i t => { t with tag := .done (worker i) } := by
  obtain ⟨-, hnodup⟩ := hdealt.classes_perm hclasses fun w hw => (hstart w hw).2
  have hids : ∀ w ∈ workers', w.1 ∈ workerIds := by
    intro w hw
    have := List.mem_map_of_mem (f := Prod.fst) hw
    rw [hdealt.ids] at this
    obtain ⟨v, hv, hvw⟩ := List.mem_map.mp this
    exact hvw ▸ (hstart v hv).1
  have hwhole : ∀ c ∈ classes, ∃ w ∈ workerIds, ∀ i ∈ c, ∀ tag, tagged workers' tag i = .done w := by
    intro c hc
    obtain ⟨w, hw, hsub⟩ := hdealt.whole _ (List.mem_map_of_mem hc)
    exact ⟨w.1, hids w hw, fun i hi => tagged_of_mem hnodup hw (hsub (List.mem_map_of_mem hi))⟩
  have hworker : ∀ i, ∃ w ∈ workerIds, i < txs.length → ∀ tag, tagged workers' tag i = .done w := by
    intro i
    by_cases hi : i < txs.length
    · obtain ⟨c, hc, hic⟩ := hclasses.covers i hi
      obtain ⟨w, hw, htagged⟩ := hwhole c hc
      exact ⟨w, hw, fun _ => htagged i hic⟩
    · obtain ⟨w, hw⟩ := List.exists_mem_of_ne_nil workerIds hworkers
      exact ⟨w, hw, fun h => absurd h hi⟩
  choose worker hmem htagged using hworker
  refine ⟨worker, hmem, fun i hi j hij => ?_, fun tag => ?_⟩
  · obtain ⟨c, hc, hic⟩ := hclasses.covers i hi
    have hj := hij.lt_length hi
    obtain ⟨w, -, hw⟩ := hwhole c hc
    have hjc := (hclasses.mem_iff c hc i hic j).mpr ⟨hj, hij⟩
    have hiw := (htagged i hi fun _ => .orphan).symm.trans (hw i hic _)
    have hjw := (htagged j hj fun _ => .orphan).symm.trans (hw j hjc _)
    exact ExecutionTag.done.inj (hiw.trans hjw.symm)
  · refine List.ext_getElem (by simp [Pool.retag]) fun i hi _ => ?_
    have hlt : i < txs.length := by simpa [Pool.retag] using hi
    simp [Pool.retag, htagged i hlt]

end

/-- Once the classes have been found, they are dealt, and the transactions are tagged. -/
theorem distribute_of_classes {classes : List (List Nat)} {touching : Key → List Nat}
    {component : NodeRef → Option UInt32} {enough : Nat} {workerIds : List ThreadId}
    (hworkers : workerIds ≠ []) (htxs : txs ≠ []) (hids : (txs.map Transaction.id).Nodup)
    (hclasses : txs.AreClasses txs.Linked classes)
    (hfound : ∀ fuel ≥ enough, (connectedComponents fuel txs).Runs .empty (classes.map (List.map .tx))
      { Graph.ofPool txs touching with component := component }.heap) :
    ∃ worker : Nat → ThreadId, (∀ i, worker i ∈ workerIds) ∧
      (∀ i < txs.length, ∀ j, txs.Linked i j → worker i = worker j) ∧
      ∀ fuel ≥ max enough classes.length, ∃ heap, (distribute fuel workerIds txs).Runs .empty
        (txs.mapIdx fun i t => { t with tag := .done (worker i) }) heap := by
  set heap := { Graph.ofPool txs touching with component := component }.heap
  have hperm := hclasses.flatten_perm
  have hlength : (classes.map (List.map NodeRef.tx)).flatten.length = txs.length := by
    rw [← List.map_flatten, List.length_map, hperm.length_eq, List.length_range]
  have hcomponents : classes.map (List.map NodeRef.tx) ≠ [] := by
    intro h
    rw [h] at hlength
    exact htxs (List.length_eq_zero_iff.mp hlength.symm)
  -- The workers start with nothing.
  set workers := workerIds.foldl (fun m i => ComponentWorkers.insert i [] m) []
  have hstart : ∀ w ∈ workers, w.1 ∈ workerIds ∧ w.2 = [] := fun w hw =>
    (mem_foldl_insert hw).resolve_left List.not_mem_nil
  obtain ⟨workers', hdealt, hassign⟩ := assignComponents_runs (List.length_map _).le hcomponents
    (foldl_insert_ne_nil _ (.inl hworkers)) heap
  obtain ⟨worker, hmem, hlinked, htags⟩ := hdealt.exists_worker hclasses hworkers hstart
  obtain ⟨hdealtPerm, -⟩ := hdealt.classes_perm hclasses fun w hw => (hstart w hw).2
  have hrefs : ∀ r ∈ workers'.flatMap Prod.snd, ∃ i < txs.length, r = .tx i := by
    intro r hr
    obtain ⟨i, hi, rfl⟩ := List.mem_map.mp (hdealtPerm.mem_iff.mp hr)
    exact ⟨i, List.mem_range.mp (hperm.mem_iff.mp hi), rfl⟩
  refine ⟨worker, hmem, hlinked, fun fuel hfuel => ⟨heap, .bind (hfound fuel (by omega)) ?_⟩⟩
  refine .bind (debugAssert_runs (by rw [← List.length_flatten, hlength]; exact beq_self_eq_true _)
    _ heap) ?_
  refine .bind (hassign fuel (by omega)) ?_
  refine .bind (debugAssert_runs rfl _ heap) ?_
  have hsum : (workers'.map fun w => w.2.length).sum = txs.length := by
    rw [← List.length_flatMap, hdealtPerm.length_eq, List.map_flatten, hlength]
  refine .bind (debugAssert_runs (by rw [hsum]; exact beq_self_eq_true _) _ heap) ?_
  obtain ⟨tag, htag⟩ := txs.exists_retag_eq
  have htagged := tagAll_runs hids (Graph.names txs touching component) hrefs tag
  rw [htag, htags tag] at htagged
  refine .bind htagged (.bind (debugAssert_runs ?_ _ heap) (runs_pure _ _))
  rw [List.all_eq_true]
  intro t ht
  obtain ⟨i, hi, rfl⟩ := List.mem_mapIdx.mp ht
  rfl

/-- The distribution returns, and linked transactions go to one worker. -/
theorem distribute_returns (workerIds : List ThreadId) (txs : Pool) (hworkers : workerIds ≠ [])
    (htxs : txs ≠ []) (hids : (txs.map Transaction.id).Nodup) :
    ∃ (worker : Nat → ThreadId) (enough : Nat), (∀ i, worker i ∈ workerIds) ∧
      (∀ i < txs.length, ∀ j, txs.Linked i j → worker i = worker j) ∧
      ∀ fuel ≥ enough, ∃ heap, (distribute fuel workerIds txs).Runs .empty
        (txs.mapIdx fun i t => { t with tag := .done (worker i) }) heap := by
  obtain ⟨classes, touching, component, enough, hclasses, hfound⟩ := connectedComponents_runs txs
  obtain ⟨worker, hmem, hlinked, hruns⟩ := distribute_of_classes hworkers htxs hids hclasses hfound
  exact ⟨worker, _, hmem, hlinked, hruns⟩

/-- **Transactions are distributed by connectivity.**  What the traversals find are
the classes of the transactions that are linked by shared keys, each once, from its
first transaction; transactions of one class are tagged with one worker; and nothing
but the tags has changed. -/
theorem distribute_by_connectivity (workerIds : List ThreadId) (txs : Pool) (hworkers : workerIds ≠ [])
    (htxs : txs ≠ []) (hids : (txs.map Transaction.id).Nodup) :
    ∃ (classes : List (List Nat)) (worker : Nat → ThreadId) (enough : Nat),
      txs.AreClasses txs.Linked classes ∧
      (∀ i, worker i ∈ workerIds) ∧
      (∀ i < txs.length, ∀ j, txs.Linked i j → worker i = worker j) ∧
      ∀ fuel ≥ enough,
        (∃ heap, (connectedComponents fuel txs).Runs .empty (classes.map (List.map .tx)) heap) ∧
        ∃ heap, (distribute fuel workerIds txs).Runs .empty
          (txs.mapIdx fun i t => { t with tag := .done (worker i) }) heap := by
  obtain ⟨classes, touching, component, enough, hclasses, hfound⟩ := connectedComponents_runs txs
  obtain ⟨worker, hmem, hlinked, hruns⟩ := distribute_of_classes hworkers htxs hids hclasses hfound
  exact ⟨classes, worker, max enough classes.length, hclasses, hmem, hlinked, fun fuel hfuel =>
    ⟨⟨_, hfound fuel (le_trans (Nat.le_max_left ..) hfuel)⟩, hruns fuel hfuel⟩⟩

end

section
open Testing

/-- Alice pays bob, bob pays himself, and so does dave. -/
def payments : Pool :=
  [.new 7 (.balances (.transfer bob 4)) alice ([], []),
    .new 8 (.balances (.transfer bob 1)) bob ([], []),
    .new 9 (.balances (.transfer dave 2)) dave ([], [])]

theorem distribute_by_connectivity_payments :
    ∃ (classes : List (List Nat)) (worker : Nat → ThreadId) (enough : Nat),
      payments.AreClasses payments.Linked classes ∧
      (∀ i, worker i ∈ [3, 1]) ∧
      (∀ i < payments.length, ∀ j, payments.Linked i j → worker i = worker j) ∧
      ∀ fuel ≥ enough,
        (∃ heap, (connectedComponents fuel payments).Runs .empty (classes.map (List.map .tx)) heap) ∧
        ∃ heap, (distribute fuel [3, 1] payments).Runs .empty
          (payments.mapIdx fun i t => { t with tag := .done (worker i) }) heap :=
  distribute_by_connectivity [3, 1] payments (by decide) (List.cons_ne_nil _ _) (by decide)

/-- The tags that a run of the distribution ends with. -/
def tagsOf (run : Option (Except Panic (Pool × Heap))) : Option (List ExecutionTag) :=
  run.bind fun result => result.toOption.map fun txs => txs.1.map Transaction.tag

example : tagsOf (distribute 8 [3, 1] payments .empty) = some [.done 1, .done 1, .done 3] := by
  decide +kernel

end
end SonicChain
