import Mathlib.Logic.Function.Basic
import Mathlib.Data.List.Induction

/-! # Programs over a key–value store

A `StoreProgram` is straight-line code over a store of `V`s under keys `K`: it
reads and writes, one key at a time, and every access may be refused with an
error `E` (a lock held by someone else, say).  It ends with a result or with a
fault `F`.

The reference semantics `run` executes a program alone on a total store that
refuses nothing.  `touched` and `written` are the keys such a run accesses and
writes.  What the rest of the development uses is the frame property
(`run_frame`): a run depends only on the keys it touches, and changes no other
key.  From it follows that programs of several owners, each of which keeps to
keys of its own, may be merged in any order (`runAll_merge`).
-/

/-- Code over a key–value store, as a tree of accesses: each access is followed
by what the code does with the answer. -/
inductive StoreProgram (K V E F α : Type) : Type where
  | done (a : α)
  | fault (f : F)
  | read (k : K) (next : Except E V → StoreProgram K V E F α)
  | write (k : K) (v : V) (next : Except E Unit → StoreProgram K V E F α)

namespace StoreProgram
variable {K V E F α β : Type}

/-- Sequential composition. -/
def bind : StoreProgram K V E F α → (α → StoreProgram K V E F β) → StoreProgram K V E F β
  | .done a, g => g a
  | .fault f, _ => .fault f
  | .read k next, g => .read k fun r => (next r).bind g
  | .write k v next, g => .write k v fun r => (next r).bind g

instance : Monad (StoreProgram K V E F) where
  pure := .done
  bind := bind

@[simp] theorem pure_eq (a : α) : (pure a : StoreProgram K V E F α) = .done a := rfl

@[simp] theorem done_bind (a : α) (g : α → StoreProgram K V E F β) :
    (StoreProgram.done a >>= g) = g a := rfl

@[simp] theorem fault_bind (f : F) (g : α → StoreProgram K V E F β) :
    (StoreProgram.fault f >>= g) = .fault f := rfl

@[simp] theorem read_bind (k : K) (next : Except E V → StoreProgram K V E F α)
    (g : α → StoreProgram K V E F β) :
    (StoreProgram.read k next >>= g) = .read k fun r => next r >>= g := rfl

@[simp] theorem write_bind (k : K) (v : V) (next : Except E Unit → StoreProgram K V E F α)
    (g : α → StoreProgram K V E F β) :
    (StoreProgram.write k v next >>= g) = .write k v fun r => next r >>= g := rfl

section Run
variable [DecidableEq K]

/-- The run of a program alone, on a store that refuses no access. -/
def run : StoreProgram K V E F α → (K → V) → Except F (α × (K → V))
  | .done a, d => .ok (a, d)
  | .fault f, _ => .error f
  | .read k next, d => run (next (.ok (d k))) d
  | .write k v next, d => run (next (.ok ())) (Function.update d k v)

/-- The keys the run of a program accesses, in order. -/
def touched : StoreProgram K V E F α → (K → V) → List K
  | .done _, _ => []
  | .fault _, _ => []
  | .read k next, d => k :: touched (next (.ok (d k))) d
  | .write k v next, d => k :: touched (next (.ok ())) (Function.update d k v)

/-- The keys the run of a program writes, in order. -/
def written : StoreProgram K V E F α → (K → V) → List K
  | .done _, _ => []
  | .fault _, _ => []
  | .read k next, d => written (next (.ok (d k))) d
  | .write k v next, d => k :: written (next (.ok ())) (Function.update d k v)

theorem written_subset_touched (p : StoreProgram K V E F α) (d : K → V) :
    ∀ k ∈ p.written d, k ∈ p.touched d := by
  induction p generalizing d with
  | done a => simp [written]
  | fault f => simp [written]
  | read k next ih => exact fun j hj => List.mem_cons_of_mem _ (ih _ d j hj)
  | write k v next ih =>
    intro j hj
    rcases List.mem_cons.mp hj with rfl | hj
    · exact List.mem_cons_self ..
    · exact List.mem_cons_of_mem _ (ih _ _ j hj)

/-- A run changes only keys it writes. -/
theorem run_unwritten {p : StoreProgram K V E F α} {d d' : K → V} {a : α}
    (h : p.run d = .ok (a, d')) : ∀ k, k ∉ p.written d → d' k = d k := by
  induction p generalizing d with
  | done b =>
    obtain ⟨-, rfl⟩ := Prod.mk.inj (Except.ok.inj h)
    exact fun _ _ => rfl
  | fault f => cases h
  | read k next ih => exact ih _ h
  | write k v next ih =>
    intro j hj
    obtain ⟨hjk, hj⟩ := List.ne_and_not_mem_of_not_mem_cons hj
    rw [ih _ h j hj, Function.update_of_ne hjk]

/-- A run changes only keys it touches. -/
theorem run_untouched {p : StoreProgram K V E F α} {d d' : K → V} {a : α}
    (h : p.run d = .ok (a, d')) (k : K) (hk : k ∉ p.touched d) : d' k = d k :=
  run_unwritten h k fun hw => hk (written_subset_touched p d k hw)

/-- **A run depends only on the keys it touches.**  From a store that agrees on
them, the same program touches and writes the same keys, ends in the same way,
and leaves the same values under them. -/
theorem run_frame {p : StoreProgram K V E F α} {d d' e : K → V} {a : α}
    (h : p.run d = .ok (a, d')) (hag : ∀ k ∈ p.touched d, e k = d k) :
    p.touched e = p.touched d ∧ p.written e = p.written d ∧
      ∃ e', p.run e = .ok (a, e') ∧ ∀ k ∈ p.touched d, e' k = d' k := by
  induction p generalizing d e with
  | done b =>
    obtain ⟨rfl, rfl⟩ := Prod.mk.inj (Except.ok.inj h)
    exact ⟨rfl, rfl, e, rfl, hag⟩
  | fault f => cases h
  | read k next ih =>
    have hk : e k = d k := hag k (List.mem_cons_self ..)
    have h : (next (.ok (d k))).run d = .ok (a, d') := h
    obtain ⟨ht, hw, e', he', hv⟩ := ih (.ok (d k)) h fun j hj => hag j (List.mem_cons_of_mem _ hj)
    simp only [touched, written, run, hk, ht, hw]
    refine ⟨trivial, trivial, e', he', fun j hj => ?_⟩
    by_cases hjt : j ∈ (next (.ok (d k))).touched d
    · exact hv j hjt
    · have hjt' : j ∉ (next (.ok (d k))).touched e := ht ▸ hjt
      rw [run_untouched he' j hjt', run_untouched h j hjt, hag j hj]
  | write k v next ih =>
    have h : (next (.ok ())).run (Function.update d k v) = .ok (a, d') := h
    have hag' : ∀ j ∈ (next (.ok ())).touched (Function.update d k v),
        Function.update e k v j = Function.update d k v j := by
      intro j hj
      by_cases hjk : j = k
      · subst hjk; simp
      · rw [Function.update_of_ne hjk, Function.update_of_ne hjk]
        exact hag j (List.mem_cons_of_mem _ hj)
    obtain ⟨ht, hw, e', he', hv⟩ := ih (.ok ()) h hag'
    simp only [touched, written, run, ht, hw]
    refine ⟨trivial, trivial, e', he', fun j hj => ?_⟩
    by_cases hjt : j ∈ (next (.ok ())).touched (Function.update d k v)
    · exact hv j hjt
    · have hjt' : j ∉ (next (.ok ())).touched (Function.update e k v) := ht ▸ hjt
      rw [run_untouched he' j hjt', run_untouched h j hjt]
      rcases List.mem_cons.mp hj with rfl | hj
      · simp
      · exact absurd hj hjt

/-- Neither does a fault depend on other keys. -/
theorem run_frame_fault {p : StoreProgram K V E F α} {d e : K → V} {f : F} (h : p.run d = .error f)
    (hag : ∀ k ∈ p.touched d, e k = d k) : p.run e = .error f := by
  induction p generalizing d e with
  | done a => cases h
  | fault f' => exact h
  | read k next ih =>
    have hk : e k = d k := hag k (List.mem_cons_self ..)
    rw [run, hk]
    exact ih _ h fun j hj => hag j (List.mem_cons_of_mem _ hj)
  | write k v next ih =>
    refine ih _ h fun j hj => ?_
    by_cases hjk : j = k
    · subst hjk; simp
    · rw [Function.update_of_ne hjk, Function.update_of_ne hjk]
      exact hag j (List.mem_cons_of_mem _ hj)

/-! ### Several programs, one after the other -/

/-- The store left by running programs one after the other, or the first
fault. -/
def runAll : List (StoreProgram K V E F α) → (K → V) → Except F (K → V)
  | [], d => .ok d
  | p :: ps, d =>
    match p.run d with
    | .ok (_, d') => runAll ps d'
    | .error f => .error f

/-- The keys accessed by programs run one after the other. -/
def touchedAll : List (StoreProgram K V E F α) → (K → V) → List K
  | [], _ => []
  | p :: ps, d =>
    p.touched d ++
      match p.run d with
      | .ok (_, d') => touchedAll ps d'
      | .error _ => []

/-- The keys written by programs run one after the other. -/
def writtenAll : List (StoreProgram K V E F α) → (K → V) → List K
  | [], _ => []
  | p :: ps, d =>
    p.written d ++
      match p.run d with
      | .ok (_, d') => writtenAll ps d'
      | .error _ => []

@[simp] theorem runAll_nil (d : K → V) :
    runAll ([] : List (StoreProgram K V E F α)) d = .ok d := rfl

theorem runAll_append {ps qs : List (StoreProgram K V E F α)} {d d' : K → V}
    (h : runAll ps d = .ok d') : runAll (ps ++ qs) d = runAll qs d' := by
  induction ps generalizing d with
  | nil => cases h; rfl
  | cons p ps ih =>
    rw [List.cons_append, runAll]
    rw [runAll] at h
    cases hp : p.run d with
    | ok r => rw [hp] at h; exact ih h
    | error f => rw [hp] at h; cases h

theorem touchedAll_append {ps qs : List (StoreProgram K V E F α)} {d d' : K → V}
    (h : runAll ps d = .ok d') :
    touchedAll (ps ++ qs) d = touchedAll ps d ++ touchedAll qs d' := by
  induction ps generalizing d with
  | nil => cases h; rfl
  | cons p ps ih =>
    rw [List.cons_append, touchedAll, touchedAll]
    rw [runAll] at h
    cases hp : p.run d with
    | ok r => rw [hp] at h; simp only [ih h, List.append_assoc]
    | error f => rw [hp] at h; cases h

theorem writtenAll_append {ps qs : List (StoreProgram K V E F α)} {d d' : K → V}
    (h : runAll ps d = .ok d') :
    writtenAll (ps ++ qs) d = writtenAll ps d ++ writtenAll qs d' := by
  induction ps generalizing d with
  | nil => cases h; rfl
  | cons p ps ih =>
    rw [List.cons_append, writtenAll, writtenAll]
    rw [runAll] at h
    cases hp : p.run d with
    | ok r => rw [hp] at h; simp only [ih h, List.append_assoc]
    | error f => rw [hp] at h; cases h

theorem runAll_of_append {ps qs : List (StoreProgram K V E F α)} {d d' : K → V}
    (h : runAll (ps ++ qs) d = .ok d') : ∃ e, runAll ps d = .ok e := by
  induction ps generalizing d with
  | nil => exact ⟨d, rfl⟩
  | cons p ps ih =>
    rw [List.cons_append, runAll] at h
    rw [runAll]
    cases hp : p.run d with
    | ok r => rw [hp] at h; exact ih h
    | error f => rw [hp] at h; cases h

/-- A run of `ps ++ [p]` is a run of `ps` followed by a run of `p`. -/
theorem runAll_snoc {ps : List (StoreProgram K V E F α)} {p : StoreProgram K V E F α}
    {d d' : K → V} (h : runAll (ps ++ [p]) d = .ok d') :
    ∃ e a, runAll ps d = .ok e ∧ p.run e = .ok (a, d') := by
  induction ps generalizing d with
  | nil =>
    simp only [List.nil_append, runAll] at h
    cases hp : p.run d with
    | ok r => rw [hp] at h; cases h; exact ⟨d, r.1, rfl, hp⟩
    | error f => rw [hp] at h; cases h
  | cons q ps ih =>
    rw [List.cons_append, runAll] at h
    cases hq : q.run d with
    | ok r =>
      rw [hq] at h
      obtain ⟨e, a, he, ha⟩ := ih h
      exact ⟨e, a, by rw [runAll, hq]; exact he, ha⟩
    | error f => rw [hq] at h; cases h

theorem runAll_concat {ps : List (StoreProgram K V E F α)} {p : StoreProgram K V E F α}
    {d e d' : K → V} {a : α} (h : runAll ps d = .ok e) (hp : p.run e = .ok (a, d')) :
    runAll (ps ++ [p]) d = .ok d' := by
  rw [runAll_append h, runAll, hp]
  rfl

theorem touchedAll_concat {ps : List (StoreProgram K V E F α)} {p : StoreProgram K V E F α}
    {d e : K → V} (h : runAll ps d = .ok e) :
    touchedAll (ps ++ [p]) d = touchedAll ps d ++ p.touched e := by
  rw [touchedAll_append h, touchedAll]
  cases p.run e <;> simp [touchedAll]

/-- What the first programs access, they all do. -/
theorem touchedAll_prefix {ps : List (StoreProgram K V E F α)} (qs : List (StoreProgram K V E F α))
    {d : K → V} : ∀ k ∈ touchedAll ps d, k ∈ touchedAll (ps ++ qs) d := by
  induction ps generalizing d with
  | nil => exact fun k hk => absurd hk List.not_mem_nil
  | cons p ps ih =>
    intro k hk
    rw [touchedAll] at hk
    rw [List.cons_append, touchedAll]
    refine List.mem_append.mpr ((List.mem_append.mp hk).imp_right fun hk => ?_)
    cases hp : p.run d with
    | ok r => rw [hp] at hk; exact ih k hk
    | error f => rw [hp] at hk; cases hk

theorem writtenAll_concat {ps : List (StoreProgram K V E F α)} {p : StoreProgram K V E F α}
    {d e : K → V} (h : runAll ps d = .ok e) :
    writtenAll (ps ++ [p]) d = writtenAll ps d ++ p.written e := by
  rw [writtenAll_append h, writtenAll]
  cases p.run e <;> simp [writtenAll]

theorem runAll_untouched {ps : List (StoreProgram K V E F α)} {d d' : K → V}
    (h : runAll ps d = .ok d') (k : K) (hk : k ∉ touchedAll ps d) : d' k = d k := by
  induction ps generalizing d with
  | nil => cases h; rfl
  | cons p ps ih =>
    rw [runAll] at h
    rw [touchedAll] at hk
    cases hp : p.run d with
    | ok r =>
      obtain ⟨a, d''⟩ := r
      rw [hp] at h hk
      obtain ⟨hk1, hk2⟩ := not_or.mp (fun hm => hk (List.mem_append.mpr hm))
      rw [ih h hk2, run_untouched hp k hk1]
    | error f => rw [hp] at h; cases h

/-! ### Merging the histories of several owners -/

section Merge
variable {W : Type} [DecidableEq W]

/-- The programs of owner `w` in a tagged history, in order. -/
def partOf (w : W) (B : List (W × StoreProgram K V E F α)) : List (StoreProgram K V E F α) :=
  B.filterMap fun x => if x.1 = w then some x.2 else none

omit [DecidableEq K] in
@[simp] theorem partOf_nil (w : W) : partOf w ([] : List (W × StoreProgram K V E F α)) = [] := rfl

omit [DecidableEq K] in
theorem partOf_append (w : W) (B C : List (W × StoreProgram K V E F α)) :
    partOf w (B ++ C) = partOf w B ++ partOf w C := List.filterMap_append

omit [DecidableEq K] in
theorem partOf_concat_self (w : W) (B : List (W × StoreProgram K V E F α))
    (p : StoreProgram K V E F α) : partOf w (B ++ [(w, p)]) = partOf w B ++ [p] := by
  simp [partOf]

omit [DecidableEq K] in
theorem partOf_concat_of_ne {v w : W} (h : w ≠ v) (B : List (W × StoreProgram K V E F α))
    (p : StoreProgram K V E F α) : partOf v (B ++ [(w, p)]) = partOf v B := by
  simp [partOf, h]

/-- **Histories over disjoint keys may be merged in any order.**  Each owner's
part of the history, run alone from `d`, ends in `view w` and keeps to the keys
`own` gives to `w`.  Then the whole history runs from `d` too: it leaves every
owner its own view, changes no unowned key, and writes what the parts write. -/
theorem runAll_merge {own : K → Option W} {d : K → V} (B : List (W × StoreProgram K V E F α))
    {view : W → K → V} (hrun : ∀ w, runAll (partOf w B) d = .ok (view w))
    (hown : ∀ w, ∀ k ∈ touchedAll (partOf w B) d, own k = some w) :
    ∃ d', runAll (B.map Prod.snd) d = .ok d' ∧
      (∀ w k, own k = some w → d' k = view w k) ∧ (∀ k, own k = none → d' k = d k) ∧
      ∀ k, k ∈ writtenAll (B.map Prod.snd) d ↔ ∃ w, k ∈ writtenAll (partOf w B) d := by
  induction B using List.reverseRecOn generalizing view with
  | nil =>
    refine ⟨d, rfl, fun w k _ => ?_, fun _ _ => rfl, by simp [writtenAll]⟩
    exact congrFun (Except.ok.inj (hrun w)) k
  | append_singleton B x ih =>
    obtain ⟨w, p⟩ := x
    -- The last program runs from its owner's view `e` of the earlier history.
    have hlast := hrun w
    rw [partOf_concat_self] at hlast
    obtain ⟨e, a, he, hp⟩ := runAll_snoc hlast
    have hprev : ∀ v, runAll (partOf v B) d = .ok (if v = w then e else view v) := by
      intro v
      by_cases hv : v = w
      · subst hv; simpa using he
      · simpa [hv, partOf_concat_of_ne (Ne.symm hv)] using hrun v
    have hownp : ∀ k ∈ p.touched e, own k = some w := by
      intro k hk
      refine hown w k ?_
      rw [partOf_concat_self, touchedAll_concat he]
      exact List.mem_append_right _ hk
    have hownB : ∀ v, ∀ k ∈ touchedAll (partOf v B) d, own k = some v := by
      intro v k hk
      by_cases hv : v = w
      · subst hv
        refine hown v k ?_
        rw [partOf_concat_self, touchedAll_concat he]
        exact List.mem_append_left _ hk
      · exact hown v k (by rwa [partOf_concat_of_ne (Ne.symm hv)])
    obtain ⟨d₁, hd₁, hview, hnone, hwritten⟩ := ih hprev hownB
    have hag : ∀ k ∈ p.touched e, d₁ k = e k := by
      intro k hk
      simpa using hview w k (hownp k hk)
    obtain ⟨-, hw, d₂, hd₂, hval⟩ := run_frame hp hag
    have hkeep : ∀ k, k ∉ p.touched e → d₂ k = d₁ k := by
      intro k hk
      refine run_untouched hd₂ k fun hm => hk ?_
      rwa [(run_frame hp hag).1] at hm
    refine ⟨d₂, ?_, ?_, ?_, ?_⟩
    · rw [List.map_append]
      exact runAll_concat hd₁ hd₂
    · intro v k hk
      by_cases hv : v = w
      · subst hv
        by_cases hkt : k ∈ p.touched e
        · exact hval k hkt
        · rw [hkeep k hkt, run_untouched hp k hkt]
          simpa using hview v k hk
      · have hkt : k ∉ p.touched e := by
          intro hm
          rw [hownp k hm] at hk
          exact hv (Option.some.inj hk).symm
        rw [hkeep k hkt]
        simpa [hv] using hview v k hk
    · intro k hk
      have hkt : k ∉ p.touched e := by
        intro hm
        rw [hownp k hm] at hk
        cases hk
      rw [hkeep k hkt, hnone k hk]
    · intro k
      rw [List.map_append, List.map_cons, List.map_nil, writtenAll_concat hd₁, List.mem_append,
        hwritten, hw]
      constructor
      · rintro (⟨v, hv⟩ | hk)
        · by_cases hvw : v = w
          · subst hvw
            exact ⟨v, by rw [partOf_concat_self, writtenAll_concat he]; simp [hv]⟩
          · exact ⟨v, by rwa [partOf_concat_of_ne (Ne.symm hvw)]⟩
        · exact ⟨w, by rw [partOf_concat_self, writtenAll_concat he]; simp [hk]⟩
      · rintro ⟨v, hv⟩
        by_cases hvw : v = w
        · subst hvw
          rw [partOf_concat_self, writtenAll_concat he, List.mem_append] at hv
          exact hv.imp (fun h => ⟨v, h⟩) id
        · exact Or.inl ⟨v, by rwa [partOf_concat_of_ne (Ne.symm hvw)] at hv⟩

/-- **Each owner's part runs alone**, where the whole history runs. -/
theorem runAll_partOf {own : K → Option W} {d d' : K → V} (B : List (W × StoreProgram K V E F α))
    (hrun : runAll (B.map Prod.snd) d = .ok d')
    (hown : ∀ w, ∀ k ∈ touchedAll (partOf w B) d, own k = some w) (w : W) :
    ∃ view, runAll (partOf w B) d = .ok view := by
  induction B using List.reverseRecOn generalizing d' w with
  | nil => exact ⟨d, rfl⟩
  | append_singleton B x ih =>
    obtain ⟨v, p⟩ := x
    rw [List.map_append] at hrun
    obtain ⟨e, a, he, hp⟩ := runAll_snoc hrun
    have hownB : ∀ u, ∀ k ∈ touchedAll (partOf u B) d, own k = some u := fun u k hk =>
      hown u k (by rw [partOf_append]; exact touchedAll_prefix _ k hk)
    have hparts := ih he hownB
    by_cases hw : v = w
    · subst hw
      choose view hview using hparts
      rw [partOf_concat_self]
      obtain ⟨e', he', hmine, -⟩ := runAll_merge B hview hownB
      obtain rfl := Except.ok.inj (he.symm.trans he')
      -- From its owner's view, the last program does as it does in the whole history.
      have hag : ∀ k ∈ p.touched (view v), e k = view v k := by
        intro k hk
        refine hmine v k (hown v k ?_)
        rw [partOf_concat_self, touchedAll_concat (hview v)]
        exact List.mem_append_right _ hk
      cases hlast : p.run (view v) with
      | ok r => exact ⟨r.2, runAll_concat (hview v) hlast⟩
      | error f => cases hp.symm.trans (run_frame_fault hlast hag)
    · rw [partOf_concat_of_ne hw]
      exact hparts w

end Merge
end Run
end StoreProgram
