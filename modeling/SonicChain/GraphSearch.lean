import Mathlib.Data.Finset.Card
import Mathlib.Logic.Relation

/-! # Searching a graph and marking what leaves the queue

A breadth-first search may mark a node when it puts it in the queue, or only when
it takes it out.  In the latter case nodes are in the queue several times, and are
expanded again after they have been marked.  The search still ends
(`exists_iterate_done`), and from an unmarked start, where what is marked already
is closed under the edges, it finds each node that can be reached from the start,
once (`Searching.found_iff`).
-/

namespace GraphSearch
variable {N : Type} [DecidableEq N]

/-- How far a search has come. -/
structure Progress (N : Type) where
  marked : N → Bool
  queue : List N
  found : List N

variable (next : N → List N)

/-- The first node leaves the queue and is marked, and the nodes next to it that
are not yet marked are put at the end.  It has been found if it was not marked. -/
def step (p : Progress N) : Progress N :=
  match p.queue with
  | [] => p
  | x :: rest =>
    { marked := Function.update p.marked x true
      queue := rest ++ (next x).filter fun y => !Function.update p.marked x true y
      found := if p.marked x then p.found else p.found ++ [x] }

/-- A search from `start`. -/
def begin (marked : N → Bool) (start : N) : Progress N := ⟨marked, [start], []⟩

/-- There is an edge. -/
abbrev Edge (a b : N) : Prop := b ∈ next a

/-- There is a path. -/
abbrev Reach : N → N → Prop := Relation.ReflTransGen (Edge next)

omit [DecidableEq N] in
variable {next} in
theorem Reach.symm (hsymm : ∀ a b, b ∈ next a → a ∈ next b) {a b : N} (h : Reach next a b) :
    Reach next b a := by
  induction h with
  | refl => exact .refl
  | tail _ hedge ih => exact .head (hsymm _ _ hedge) ih

theorem step_of_done {p : Progress N} (h : p.queue = []) : step next p = p := by
  rw [step, h]

theorem iterate_of_done {p : Progress N} (h : p.queue = []) (n : Nat) : (step next)^[n] p = p := by
  induction n with
  | zero => rfl
  | succ n ih => rw [Function.iterate_succ_apply, step_of_done next h, ih]

/-! ## The search ends -/

section
variable (nodes : Finset N)

/-- How many nodes are not marked. -/
def unmarked (p : Progress N) : Nat := (nodes.filter fun x => p.marked x = false).card

/-- How often marked nodes are in the queue. -/
def stale (p : Progress N) : Nat := p.queue.countP p.marked

variable {nodes} {next}

/-- With each node that leaves the queue, fewer nodes are unmarked, or fewer
entries of the queue are marked already. -/
theorem step_decreases {p : Progress N} {x : N} {rest : List N} (hq : p.queue = x :: rest)
    (hx : x ∈ nodes) :
    unmarked nodes (step next p) < unmarked nodes p ∨
      unmarked nodes (step next p) = unmarked nodes p ∧ stale (step next p) < stale p := by
  cases hm : p.marked x with
  | false =>
    left
    have hmarked : (step next p).marked = Function.update p.marked x true := by rw [step, hq]
    refine Finset.card_lt_card ⟨fun y hy => ?_, fun hsub => ?_⟩
    · obtain ⟨hyu, hym⟩ := Finset.mem_filter.mp hy
      rw [hmarked] at hym
      by_cases hyx : y = x
      · subst hyx; simp at hym
      · exact Finset.mem_filter.mpr ⟨hyu, by simpa [hyx] using hym⟩
    · have hmem := hsub (Finset.mem_filter.mpr ⟨hx, hm⟩)
      rw [Finset.mem_filter, hmarked] at hmem
      simp at hmem
  | true =>
    right
    have hsame : Function.update p.marked x true = p.marked := by
      rw [← hm, Function.update_eq_self]
    have hstep : step next p =
        ⟨p.marked, rest ++ (next x).filter fun y => !p.marked y, p.found⟩ := by
      rw [step, hq]
      simp only [hsame, hm, ↓reduceIte]
    rw [hstep]
    refine ⟨rfl, ?_⟩
    have hfresh : ((next x).filter fun y => !p.marked y).countP p.marked = 0 := by
      rw [List.countP_eq_zero]
      intro y hy
      simpa using (List.mem_filter.mp hy).2
    change (rest ++ (next x).filter fun y => !p.marked y).countP p.marked < p.queue.countP p.marked
    rw [hq, List.countP_append, hfresh, List.countP_cons_of_pos hm]
    omega

theorem queue_step_subset (hclosed : ∀ x ∈ nodes, ∀ y ∈ next x, y ∈ nodes) {p : Progress N}
    (hq : ∀ x ∈ p.queue, x ∈ nodes) : ∀ x ∈ (step next p).queue, x ∈ nodes := by
  rw [step]
  split
  · exact hq
  · rename_i x rest hqueue
    intro y hy
    rcases List.mem_append.mp hy with hy | hy
    · exact hq y (hqueue ▸ List.mem_cons_of_mem _ hy)
    · exact hclosed x (hq x (hqueue ▸ List.mem_cons_self ..)) y (List.mem_filter.mp hy).1

/-- **The search ends**, in a finite graph. -/
theorem exists_iterate_done (hclosed : ∀ x ∈ nodes, ∀ y ∈ next x, y ∈ nodes) (p : Progress N)
    (hq : ∀ x ∈ p.queue, x ∈ nodes) : ∃ n, ((step next)^[n] p).queue = [] := by
  induction hu : unmarked nodes p using Nat.strong_induction_on generalizing p with
  | _ u ihu =>
    induction hs : stale p using Nat.strong_induction_on generalizing p with
    | _ v ihv =>
      match hqueue : p.queue with
      | [] => exact ⟨0, hqueue⟩
      | x :: rest =>
        have hsub := queue_step_subset hclosed hq
        have hx : x ∈ nodes := hq x (by rw [hqueue]; exact List.mem_cons_self ..)
        have hrest : ∃ n, ((step next)^[n] (step next p)).queue = [] := by
          rcases step_decreases hqueue hx with hlt | ⟨heq, hlt⟩
          · exact ihu _ (hu ▸ hlt) _ hsub rfl
          · exact ihv _ (hs ▸ hlt) _ hsub (heq.trans hu) rfl
        obtain ⟨n, hn⟩ := hrest
        exact ⟨n + 1, by rw [Function.iterate_succ_apply]; exact hn⟩

end

/-! ## What it marks -/

section
variable {next} {marked : N → Bool} {start : N}

/-- All that is next to the node is marked, or about to be. -/
def Expanded (next : N → List N) (p : Progress N) (x : N) : Prop :=
  ∀ y ∈ next x, p.marked y = true ∨ y ∈ p.queue

/-- A search from `start`, which may be marked, has come to `p`. -/
structure Covers (next : N → List N) (marked : N → Bool) (start : N) (p : Progress N) : Prop where
  kept : ∀ x, marked x = true → p.marked x = true
  started : start ∈ p.queue ∨ p.marked start = true ∧ Expanded next p start
  expanded : ∀ x, p.marked x = true → marked x = false → Expanded next p x

/-- There is an edge, from the start or from a node that is not marked. -/
def Through (next : N → List N) (marked : N → Bool) (start : N) (a b : N) : Prop :=
  Edge next a b ∧ (a = start ∨ marked a = false)

omit [DecidableEq N] in
theorem Covers.begin (next : N → List N) (marked : N → Bool) (start : N) :
    Covers next marked start (begin marked start) where
  kept _ h := h
  started := .inl (List.mem_singleton_self start)
  expanded x hx hun := by
    rw [show marked x = true from hx] at hun
    cases hun

section
variable {p : Progress N} {x : N} {rest : List N}

theorem marked_step (hq : p.queue = x :: rest) :
    (step next p).marked = Function.update p.marked x true := by
  rw [step, hq]

theorem mem_queue_step (hq : p.queue = x :: rest) {y : N} : y ∈ (step next p).queue ↔
    y ∈ rest ∨ y ∈ next x ∧ (step next p).marked y = false := by
  rw [marked_step hq, step, hq]
  simp [List.mem_append, List.mem_filter]

theorem marked_step_self (hq : p.queue = x :: rest) : (step next p).marked x = true := by
  rw [marked_step hq, Function.update_self]

theorem marked_step_mono {y : N} (h : p.marked y = true) : (step next p).marked y = true := by
  match hq : p.queue with
  | [] => rwa [step_of_done next hq]
  | x :: rest =>
    rw [marked_step hq]
    by_cases hyx : y = x
    · rw [hyx, Function.update_self]
    · rwa [Function.update_of_ne hyx]

/-- What was about to be marked still is, or has been. -/
theorem Expanded.step {z : N} (h : Expanded next p z) : Expanded next (step next p) z := by
  match hq : p.queue with
  | [] => rwa [step_of_done next hq]
  | x :: rest =>
    intro y hy
    rcases h y hy with hm | hm
    · exact .inl (marked_step_mono hm)
    · rw [hq] at hm
      rcases List.mem_cons.mp hm with rfl | hm
      · exact .inl (marked_step_self hq)
      · exact .inr ((mem_queue_step hq).mpr (.inl hm))

theorem expanded_step_self (hq : p.queue = x :: rest) : Expanded next (step next p) x := by
  intro y hy
  cases hm : (step next p).marked y with
  | true => exact .inl rfl
  | false => exact .inr ((mem_queue_step hq).mpr (.inr ⟨hy, hm⟩))

theorem Covers.step (h : Covers next marked start p) : Covers next marked start (step next p) := by
  match hq : p.queue with
  | [] => rwa [step_of_done next hq]
  | x :: rest =>
    refine ⟨fun y hy => marked_step_mono (h.kept y hy), ?_, fun y hy hun => ?_⟩
    · rcases h.started with hstart | ⟨hstart, hexpanded⟩
      · rw [hq] at hstart
        rcases List.mem_cons.mp hstart with rfl | hstart
        · exact .inr ⟨marked_step_self hq, expanded_step_self hq⟩
        · exact .inl ((mem_queue_step hq).mpr (.inl hstart))
      · exact .inr ⟨marked_step_mono hstart, hexpanded.step⟩
    · by_cases hyx : y = x
      · subst hyx
        exact expanded_step_self hq
      · rw [marked_step hq, Function.update_of_ne hyx] at hy
        exact (h.expanded y hy hun).step

theorem Covers.iterate (h : Covers next marked start p) (n : Nat) :
    Covers next marked start ((GraphSearch.step next)^[n] p) := by
  induction n generalizing p with
  | zero => exact h
  | succ n ih => rw [Function.iterate_succ_apply]; exact ih h.step

omit [DecidableEq N] in
/-- **A search that has ended has marked what can be reached through unmarked nodes.** -/
theorem Covers.marked_of_reach (h : Covers next marked start p) (hdone : p.queue = []) {x : N}
    (hx : Relation.ReflTransGen (Through next marked start) start x) : p.marked x = true := by
  have hdry : ∀ y, y ∉ p.queue := fun y => by rw [hdone]; exact List.not_mem_nil
  have hstart := h.started.resolve_left (hdry start)
  induction hx with
  | refl => exact hstart.1
  | @tail a b _ hedge ih =>
    obtain ⟨hedge, rfl | hun⟩ := hedge
    · exact (hstart.2 b hedge).resolve_right (hdry b)
    · exact (h.expanded a ih hun b hedge).resolve_right (hdry b)

end
end

/-! ## What it finds -/

section
variable {next} {marked : N → Bool} {start : N}

/-- A search from `start`, which is not marked, has come to `p`. -/
structure Searching (next : N → List N) (marked : N → Bool) (start : N) (p : Progress N) : Prop where
  unmarked : marked start = false
  marked_iff : ∀ x, p.marked x = true ↔ marked x = true ∨ x ∈ p.found
  nodup : p.found.Nodup
  fresh : ∀ x ∈ p.found, marked x = false
  reached : ∀ x, x ∈ p.found ∨ x ∈ p.queue → Reach next start x
  /-- What is next to a node that has been found is marked, or about to be. -/
  closed : ∀ x ∈ p.found, ∀ y ∈ next x, p.marked y = true ∨ y ∈ p.queue
  /-- The start is found first. -/
  first : p.queue = [start] ∧ p.found = [] ∨ p.found.head? = some start

omit [DecidableEq N] in
theorem Searching.begin (next : N → List N) (h : marked start = false) :
    Searching next marked start (begin marked start) where
  unmarked := h
  marked_iff x := by simp [GraphSearch.begin]
  nodup := List.nodup_nil
  fresh x hx := absurd hx List.not_mem_nil
  reached x hx := by
    rcases hx with hx | hx
    · exact absurd hx List.not_mem_nil
    · obtain rfl := List.mem_singleton.mp hx
      exact .refl
  closed x hx := absurd hx List.not_mem_nil
  first := .inl ⟨rfl, rfl⟩

theorem Searching.step {p : Progress N} (h : Searching next marked start p) :
    Searching next marked start (step next p) := by
  match hq : p.queue with
  | [] => rwa [step_of_done next hq]
  | x :: rest =>
    have hx : Reach next start x := h.reached x (.inr (by rw [hq]; exact List.mem_cons_self ..))
    have hmarkedStep : (GraphSearch.step next p).marked = _ := marked_step hq
    have hreach : ∀ y, y ∈ p.found ∨ y ∈ (GraphSearch.step next p).queue → Reach next start y := by
      rintro y (hy | hy)
      · exact h.reached y (.inl hy)
      · rcases (mem_queue_step hq).mp hy with hy | ⟨hy, -⟩
        · exact h.reached y (.inr (by rw [hq]; exact List.mem_cons_of_mem _ hy))
        · exact hx.tail hy
    have hclosed : ∀ z ∈ p.found, Expanded next (GraphSearch.step next p) z := fun z hz =>
      Expanded.step (h.closed z hz)
    have hfoundStep : (GraphSearch.step next p).found =
        if p.marked x then p.found else p.found ++ [x] := by
      rw [GraphSearch.step, hq]
    cases hm : p.marked x with
    | true =>
      have hmarked : (GraphSearch.step next p).marked = p.marked := by
        rw [hmarkedStep, ← hm, Function.update_eq_self]
      have hfound : (GraphSearch.step next p).found = p.found := by
        rw [hfoundStep, hm]
        rfl
      refine ⟨h.unmarked, ?_, ?_, ?_, ?_, ?_, ?_⟩
      · rw [hmarked, hfound]; exact h.marked_iff
      · rw [hfound]; exact h.nodup
      · rw [hfound]; exact h.fresh
      · rw [hfound]; exact hreach
      · rw [hfound]; exact hclosed
      · rw [hfound]
        refine h.first.elim (fun ⟨hstart, hnil⟩ => ?_) .inr
        rw [hq] at hstart
        obtain ⟨rfl, -⟩ := List.cons.inj hstart
        have := (h.marked_iff x).mp hm
        rw [h.unmarked, hnil] at this
        simp at this
    | false =>
      have hfound : (GraphSearch.step next p).found = p.found ++ [x] := by
        rw [hfoundStep, hm]
        rfl
      have hnew : marked x = false ∧ x ∉ p.found := by
        have := (h.marked_iff x).not.mp (by rw [hm]; decide)
        rw [not_or] at this
        exact ⟨by simpa using this.1, this.2⟩
      refine ⟨h.unmarked, ?_, ?_, ?_, ?_, ?_, ?_⟩
      · intro y
        rw [hfound, hmarkedStep]
        by_cases hyx : y = x
        · subst hyx; simp
        · simpa [hyx] using h.marked_iff y
      · rw [hfound]
        exact List.nodup_append.mpr ⟨h.nodup, List.nodup_singleton x, fun a ha b hb => by
          rintro rfl
          exact hnew.2 (List.mem_singleton.mp hb ▸ ha)⟩
      · rw [hfound]
        intro y hy
        rcases List.mem_append.mp hy with hy | hy
        · exact h.fresh y hy
        · exact List.mem_singleton.mp hy ▸ hnew.1
      · rw [hfound]
        rintro y (hy | hy)
        · rcases List.mem_append.mp hy with hy | hy
          · exact hreach y (.inl hy)
          · exact List.mem_singleton.mp hy ▸ hx
        · exact hreach y (.inr hy)
      · rw [hfound]
        intro z hz y hy
        rcases List.mem_append.mp hz with hz | hz
        · exact hclosed z hz y hy
        · rw [List.mem_singleton.mp hz] at hy
          exact expanded_step_self hq y hy
      · right
        rw [hfound]
        rcases h.first with ⟨hstart, hnil⟩ | hhead
        · rw [hq] at hstart
          rw [hnil, (List.cons.inj hstart).1]
          rfl
        · rw [List.head?_append, hhead]
          rfl

theorem Searching.iterate {p : Progress N} (h : Searching next marked start p) (n : Nat) :
    Searching next marked start ((GraphSearch.step next)^[n] p) := by
  induction n generalizing p with
  | zero => exact h
  | succ n ih => rw [Function.iterate_succ_apply]; exact ih h.step

omit [DecidableEq N] in
/-- **A search that has ended has found what can be reached**, if the edges are
symmetric and do not lead out of what was marked. -/
theorem Searching.found_iff {p : Progress N} (h : Searching next marked start p)
    (hdone : p.queue = []) (hsymm : ∀ a b, b ∈ next a → a ∈ next b)
    (hmarked : ∀ a, marked a = true → ∀ b ∈ next a, marked b = true) (x : N) :
    x ∈ p.found ↔ Reach next start x := by
  refine ⟨fun hx => h.reached x (.inl hx), fun hx => ?_⟩
  induction hx with
  | refl =>
    rcases h.first with ⟨hstart, -⟩ | hhead
    · rw [hdone] at hstart; cases hstart
    · exact List.mem_of_mem_head? hhead
  | @tail a b _ hedge ih =>
    have hb : p.marked b = true := (h.closed a ih b hedge).resolve_right (by rw [hdone]; simp)
    refine ((h.marked_iff b).mp hb).resolve_left fun hold => ?_
    have ha := hmarked b hold a (hsymm a b hedge)
    rw [h.fresh a ih] at ha
    cases ha

/-- From a marked start, nothing is found. -/
theorem step_begin_of_marked (h : marked start = true)
    (hmarked : ∀ a, marked a = true → ∀ b ∈ next a, marked b = true) :
    GraphSearch.step next (begin marked start) = ⟨marked, [], []⟩ := by
  have hsame : Function.update marked start true = marked := by rw [← h, Function.update_eq_self]
  have hnone : (next start).filter (fun y => !marked y) = [] :=
    List.filter_eq_nil_iff.mpr fun y hy => by simp [hmarked start h y hy]
  change (⟨Function.update marked start true, [] ++ (next start).filter fun y =>
      !Function.update marked start true y, if marked start then [] else [] ++ [start]⟩ :
        Progress N) = _
  rw [hsame, hnone, h]
  rfl

end

/-! ## What is in the queue

Nodes are marked when they leave the queue, so a node is in it once for each
shortest walk from the start, and the queue holds the ends of the shortest walks of
one length, then of those of the next. -/

section

/-- The nodes next to `x` that are not near. -/
def farther (near : List N) (x : N) : List N := (next x).filter fun y => decide (y ∉ near)

/-- The ends of the walks that are shorter, and of the shortest walks of this length,
each once for each walk. -/
def layers (start : N) : Nat → List N × List N
  | 0 => ([], [start])
  | d + 1 =>
    let (nearer, layer) := layers start d
    (nearer ++ layer, layer.flatMap (farther next (nearer ++ layer)))

/-- The ends of the shortest walks of the length from `start`. -/
def layer (start : N) (d : Nat) : List N := (layers next start d).2

/-- The ends of the walks of at most the length. -/
def near (start : N) (d : Nat) : List N := (layers next start d).1 ++ layer next start d

/-- What waits after the walks `before` of a layer have been continued and the walks
`after` have not. -/
def waiting (start : N) (d : Nat) (before after : List N) : List N :=
  after ++ before.flatMap (farther next (near next start d))

variable {next} {start : N}

theorem layer_succ (start : N) (d : Nat) : layer next start (d + 1) =
    (layer next start d).flatMap (farther next (near next start d)) := rfl

theorem nearer_succ (start : N) (d : Nat) :
    (layers next start (d + 1)).1 = near next start d := rfl

theorem mem_farther {near : List N} {x y : N} :
    y ∈ farther next near x ↔ y ∈ next x ∧ y ∉ near := by
  rw [farther, List.mem_filter, decide_eq_true_iff]

theorem reach_of_mem_layer {d : Nat} {x : N} (hx : x ∈ layer next start d) :
    Reach next start x := by
  induction d generalizing x with
  | zero =>
    obtain rfl := List.mem_singleton.mp hx
    exact .refl
  | succ d ih =>
    obtain ⟨w, hw, hxw⟩ := List.mem_flatMap.mp hx
    exact (ih hw).tail (mem_farther.mp hxw).1

/-- In a bipartite graph, the nodes of a layer are on one side. -/
theorem color_eq_of_mem_layer {color : N → Bool} (hcolor : ∀ a b, b ∈ next a → color b = !color a)
    {d : Nat} {x y : N} (hx : x ∈ layer next start d) (hy : y ∈ layer next start d) :
    color x = color y := by
  induction d generalizing x y with
  | zero => rw [List.mem_singleton.mp hx, List.mem_singleton.mp hy]
  | succ d ih =>
    obtain ⟨w, hw, hxw⟩ := List.mem_flatMap.mp hx
    obtain ⟨v, hv, hyv⟩ := List.mem_flatMap.mp hy
    rw [hcolor w x (mem_farther.mp hxw).1, hcolor v y (mem_farther.mp hyv).1, ih hw hv]

theorem not_mem_layer_of_edge {color : N → Bool} (hcolor : ∀ a b, b ∈ next a → color b = !color a)
    {d : Nat} {x y : N} (hx : x ∈ layer next start d) (hedge : y ∈ next x) :
    y ∉ layer next start d := by
  intro hy
  have hsame := color_eq_of_mem_layer hcolor hy hx
  rw [hcolor x y hedge] at hsame
  cases h : color x <;> rw [h] at hsame <;> cases hsame

/-- The walks `before` of a layer have been continued, and `after` have not. -/
structure InLayer (next : N → List N) (marked : N → Bool) (start : N) (d : Nat)
    (before after : List N) (p : Progress N) : Prop where
  split : layer next start d = before ++ after
  queue : p.queue = waiting next start d before after
  marked_iff : ∀ x, p.marked x = true ↔
    marked x = true ∨ x ∈ (layers next start d).1 ∨ x ∈ before

variable {marked : N → Bool} {d : Nat} {before after : List N} {p : Progress N} {x : N}

theorem InLayer.begin (next : N → List N) (marked : N → Bool) (start : N) :
    InLayer next marked start 0 [] [start] (begin marked start) where
  split := rfl
  queue := rfl
  marked_iff x := by
    simp only [GraphSearch.begin, layers, List.not_mem_nil, or_self, or_false]

/-- A layer has been continued, so the next one waits. -/
theorem InLayer.turn (h : InLayer next marked start d before [] p) :
    InLayer next marked start (d + 1) [] (layer next start (d + 1)) p := by
  have hbefore : layer next start d = before := by rw [h.split, List.append_nil]
  refine ⟨rfl, ?_, fun x => ?_⟩
  · rw [h.queue, waiting, waiting, layer_succ, hbefore, List.flatMap_nil, List.append_nil,
      List.nil_append]
  · rw [h.marked_iff, nearer_succ, near, hbefore, List.mem_append]
    simp only [List.not_mem_nil, or_false]

section
variable {color : N → Bool} (hcolor : ∀ a b, b ∈ next a → color b = !color a)
  (hfresh : ∀ y, Reach next start y → marked y = false)
include hcolor hfresh

/-- **The first walk that waits is continued**, by all edges that lead farther. -/
theorem InLayer.step (h : InLayer next marked start d before (x :: after) p) :
    InLayer next marked start d (before ++ [x]) after (step next p) := by
  have hx : x ∈ layer next start d := by
    rw [h.split]
    exact List.mem_append_right _ (List.mem_cons_self ..)
  have hq : p.queue = x :: (after ++ before.flatMap (farther next (near next start d))) := h.queue
  have hmarked : ∀ y, (GraphSearch.step next p).marked y = true ↔
      marked y = true ∨ y ∈ (layers next start d).1 ∨ y ∈ before ++ [x] := by
    intro y
    rw [marked_step hq, List.mem_append, List.mem_singleton]
    by_cases hyx : y = x
    · subst hyx
      simp
    · rw [Function.update_of_ne hyx, h.marked_iff]
      simp [hyx]
  have hpushed : (next x).filter (fun y => !Function.update p.marked x true y) =
      farther next (near next start d) x := by
    refine List.filter_congr fun y hy => ?_
    have hlayer := not_mem_layer_of_edge hcolor hx hy
    have hun := hfresh y ((reach_of_mem_layer hx).tail hy)
    have hsub : y ∉ before ++ [x] := by
      intro hmem
      rw [h.split, List.append_cons] at hlayer
      exact hlayer (List.mem_append_left _ hmem)
    have hy := hmarked y
    rw [marked_step hq, hun] at hy
    simp only [Bool.false_eq_true, false_or, hsub, or_false] at hy
    rw [near]
    cases hm : Function.update p.marked x true y with
    | true => simp [hy.mp hm]
    | false =>
      rw [hm] at hy
      simp [hlayer, show y ∉ (layers next start d).1 from fun hmem => by simpa using hy.mpr hmem]
  refine ⟨by rw [h.split, List.append_cons], ?_, hmarked⟩
  have hqueue : (GraphSearch.step next p).queue =
      (after ++ before.flatMap (farther next (near next start d))) ++
        (next x).filter fun y => !Function.update p.marked x true y := by
    rw [GraphSearch.step, hq]
  rw [hqueue, hpushed, waiting, List.flatMap_append, List.flatMap_singleton, List.append_assoc]

/-- The search is always in a layer. -/
theorem exists_inLayer (n : Nat) : ∃ d before after,
    InLayer next marked start d before after ((GraphSearch.step next)^[n] (begin marked start)) := by
  induction n with
  | zero => exact ⟨0, [], [start], .begin next marked start⟩
  | succ n ih =>
    obtain ⟨d, before, after, h⟩ := ih
    rw [Function.iterate_succ_apply']
    cases after with
    | cons x after => exact ⟨d, _, after, h.step hcolor hfresh⟩
    | nil =>
      have hturn := h.turn
      cases hlayer : layer next start (d + 1) with
      | nil =>
        rw [step_of_done next (by rw [hturn.queue, hlayer]; rfl)]
        exact ⟨d, before, [], h⟩
      | cons x after =>
        rw [hlayer] at hturn
        exact ⟨d + 1, _, after, hturn.step hcolor hfresh⟩

theorem InLayer.iterate {n : Nat} {middle : List N}
    (h : InLayer next marked start d before (middle ++ after)
      ((GraphSearch.step next)^[n] (GraphSearch.begin marked start))) :
    ∃ m, InLayer next marked start d (before ++ middle) after
      ((GraphSearch.step next)^[m] (GraphSearch.begin marked start)) := by
  induction middle generalizing n before with
  | nil => exact ⟨n, by rwa [List.append_nil]⟩
  | cons x middle ih =>
    have hstep := h.step hcolor hfresh
    rw [← Function.iterate_succ_apply' (GraphSearch.step next)] at hstep
    obtain ⟨m, hm⟩ := ih hstep
    exact ⟨m, by rwa [List.append_cons]⟩

/-- The search comes to each point of each layer. -/
theorem inLayer_of_split (hsplit : layer next start d = before ++ after) :
    ∃ n, InLayer next marked start d before after
      ((GraphSearch.step next)^[n] (begin marked start)) := by
  induction d generalizing before after with
  | zero =>
    have hbegin : InLayer next marked start 0 [] (before ++ after)
        ((GraphSearch.step next)^[0] (GraphSearch.begin marked start)) := by
      rw [← hsplit]
      exact .begin next marked start
    exact hbegin.iterate hcolor hfresh
  | succ d ih =>
    obtain ⟨n, hn⟩ := ih (List.append_nil (layer next start d)).symm
    have hturn := hn.turn
    rw [hsplit] at hturn
    exact hturn.iterate hcolor hfresh

/-- **What is in the queue, over the whole search**, is what waits at some point of
some layer. -/
theorem forall_queue_iff (holds : List N → Prop) :
    (∀ n, holds ((GraphSearch.step next)^[n] (begin marked start)).queue) ↔
      ∀ d before after, layer next start d = before ++ after →
        holds (waiting next start d before after) := by
  constructor
  · intro h d before after hsplit
    obtain ⟨n, hn⟩ := inLayer_of_split hcolor hfresh hsplit
    exact hn.queue ▸ h n
  · intro h n
    obtain ⟨d, before, after, hn⟩ := exists_inLayer hcolor hfresh n
    exact hn.queue ▸ h d before after hn.split

end
end
end GraphSearch
