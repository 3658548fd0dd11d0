import SonicChain.RuntimeAgreement
import SonicChain.Record

/-! # A worker among others

While authoring, workers share the state.  A worker changes it in two ways only
(`Touch`): it taints a key that nobody owns, or inserts data under a key of its
own.  So what a worker has read and written so far stays as it left it,
whatever the others do.

`Faithful` is the resulting invariant of one worker: the dispatches it has
completed did what their codes do alone, one after the other, and the dispatch
it is in has so far done what its code does alone from there.  Every step of
the worker (`Faithful.inside`, `Faithful.settle`) and of the others
(`Faithful.of_other`) keeps it; and none of the panics that guard the state's
protocol is reached on the way.
-/

namespace SonicChain
open StoreProgram TaintState ConcurrentRuntime

/-! ## Changes of the shared state -/

/-- What a step of worker `id` may do to the state while authoring. -/
inductive Touch (id : ThreadId) (state : StateMap) : StateMap → Prop
  | same : Touch id state state
  | taint (key : Key) (h : state.taint key = none) :
    Touch id state (state.insert key ⟨state.data key, some id⟩)
  | commit (key : Key) (value : Value) (h : Owns id state key) :
    Touch id state (state.insert key ⟨value, some id⟩)

namespace Touch
variable {id v : ThreadId} {state state' : StateMap}

/-- Owners stay. -/
theorem taint_of_some (h : Touch id state state') {k : Key} {o : ThreadId}
    (hk : state.taint k = some o) : state'.taint k = some o := by
  cases h with
  | same => exact hk
  | taint key hkey =>
    have hne : k ≠ key := by rintro rfl; rw [hkey] at hk; cases hk
    simpa [hne] using hk
  | commit key value hkey =>
    by_cases hne : k = key
    · subst hne
      rw [← hk, hkey]
      simp
    · simpa [hne] using hk

theorem owns (h : Touch id state state') {k : Key} (hk : Owns v state k) : Owns v state' k :=
  h.taint_of_some hk

/-- New owners are `id`. -/
theorem taint_cases (h : Touch id state state') (k : Key) :
    state'.taint k = state.taint k ∨ state.taint k = none ∧ state'.taint k = some id := by
  cases h with
  | same => exact .inl rfl
  | taint key hkey =>
    by_cases hne : k = key
    · subst hne; exact .inr ⟨hkey, by simp⟩
    · exact .inl (by simp [hne])
  | commit key value hkey =>
    by_cases hne : k = key
    · subst hne; exact .inl (by rw [show state.taint k = some id from hkey]; simp)
    · exact .inl (by simp [hne])

theorem owns_iff (h : Touch id state state') (hv : v ≠ id) {k : Key} :
    Owns v state' k ↔ Owns v state k := by
  refine ⟨fun hk => ?_, h.owns⟩
  rcases h.taint_cases k with heq | ⟨-, heq⟩
  · exact heq.symm.trans hk
  · exact absurd (Option.some.inj (hk.symm.trans heq)) hv

/-- Data changes under the worker's own keys only. -/
theorem data_of_not_owns (h : Touch id state state') {k : Key} (hk : ¬ Owns id state k) :
    state'.data k = state.data k := by
  cases h with
  | same => rfl
  | taint key hkey => rw [StateType.data_insert, Function.update_eq_self]
  | commit key value hkey =>
    have hne : k ≠ key := by rintro rfl; exact hk hkey
    simp [hne]

theorem pending (h : Touch id state state') (hv : v ≠ id) {branch : Recheck} {key : Key}
    (hp : branch.Pending state key v) : branch.Pending state' key v := by
  cases h with
  | same => exact hp
  | taint k hk => exact hp.insert k (by simp) (by simpa using Ne.symm hv)
  | commit k value hk => exact hp.insert k (by simp) (by simpa using Ne.symm hv)

theorem mem (h : Touch id state state') {k : Key} (hk : k ∈ state) : k ∈ state' := by
  cases h with
  | same => exact hk
  | taint key hkey => exact StateType.mem_insert.mpr (.inr hk)
  | commit key value hkey => exact StateType.mem_insert.mpr (.inr hk)

end Touch

/-- The taints of the state are workers, and nobody has changed what is not
tainted, since the data was `data₀`. -/
structure Untouched (workers : List ThreadId) (data₀ : Key → Value) (state : StateMap) : Prop where
  taints : ∀ k o, state.taint k = some o → o ∈ workers
  fresh : ∀ k, state.taint k = none → state.data k = data₀ k

theorem Untouched.touch {workers : List ThreadId} {data₀ : Key → Value} {state state' : StateMap}
    (h : Untouched workers data₀ state) {id : ThreadId} (hid : id ∈ workers)
    (ht : Touch id state state') : Untouched workers data₀ state' := by
  refine ⟨fun k o hk => ?_, fun k hk => ?_⟩
  · rcases ht.taint_cases k with heq | ⟨-, heq⟩
    · exact h.taints k o (heq.symm.trans hk)
    · exact Option.some.inj (heq.symm.trans hk) ▸ hid
  · rcases ht.taint_cases k with heq | ⟨-, heq⟩
    · rw [heq] at hk
      rw [ht.data_of_not_owns fun ho => by rw [Owns, hk] at ho; cases ho]
      exact h.fresh k hk
    · rw [heq] at hk; cases hk

/-- The state has what the worker left under its keys. -/
def Synced (id : ThreadId) (state : StateMap) (view : Key → Value) : Prop :=
  ∀ k, Owns id state k → state.data k = view k

theorem Synced.of_other {id v : ThreadId} {state state' : StateMap} {view : Key → Value}
    (h : Synced v state view) (ht : Touch id state state') (hv : v ≠ id) :
    Synced v state' view := by
  intro k hk
  have hk := (ht.owns_iff hv).mp hk
  rw [ht.data_of_not_owns fun ho => hv (Option.some.inj (hk.symm.trans ho)), h k hk]

/-! ## A worker's dispatches -/

namespace Worker
variable [Ed25519]

/-- What holds at a control point, of a worker that has seen its keys last with
the data of `view`: `due` are the keys that its completed dispatches write, and
it has stored under the keys of `stored`. -/
inductive Pc.Faithful (workers : List ThreadId) (id : ThreadId) (state : StateMap)
    (view : Key → Value) (due stored : List Key) : Pc → Prop
  | outside {pc : Pc} (hpc : pc.job = none) (hsync : Synced id state view)
    (hstored : ∀ k, k ∈ stored ↔ k ∈ due) : Faithful workers id state view due stored pc
  | executing {job : Job} {code : Storage (Except DispatchError Unit)} {cache : Cache}
    (hsync : Synced id state view) (hstored : ∀ k, k ∈ stored ↔ k ∈ due)
    (htracks : Tracks job.tx.code code (fun k => cache.lookup k) (Owns id state) view)
    (hstop : FailStop DispatchError.Reports Panic.IsExpect code) :
    Faithful workers id state view due stored (.executing job code cache)
  | refused {job : Job} {code : Storage (Except DispatchError Unit)} {cache : Cache}
    {owner : ThreadId} (hsync : Synced id state view) (hstored : ∀ k, k ∈ stored ↔ k ∈ due)
    (howner : owner ∈ workers) (hne : owner ≠ id) (howns : ∃ k, Owns owner state k)
    (hrefused : Refused DispatchError.Reports Panic.IsExpect owner code) :
    Faithful workers id state view due stored (.executing job code cache)
  | recheck {job : Job} {code : Storage (Except DispatchError Unit)} {cache : Cache}
    {branch : Recheck} (hsync : Synced id state view) (hstored : ∀ k, k ∈ stored ↔ k ∈ due)
    (htracks : Tracks job.tx.code code (fun k => cache.lookup k) (Owns id state) view)
    (hstop : FailStop DispatchError.Reports Panic.IsExpect code)
    (hpending : ∀ key, accessKey code = some key →
      cache.lookup key = none ∧ branch.Pending state key id) :
    Faithful workers id state view due stored (.recheck job code cache branch)
  | committing {job : Job} {cache : Cache} {view' : Key → Value}
    (hrun : job.tx.code.run view = .ok (.ok (), view'))
    (htouched : ∀ k ∈ job.tx.code.touched view, Owns id state k)
    (hsync : ∀ k, Owns id state k → overlay (fun k => cache.lookup k) state.data k = view' k)
    (hcached : ∀ k, cache.lookup k ≠ none → Owns id state k)
    (hstored : ∀ k, k ∈ stored ∨ cache.lookup k ≠ none ↔
      k ∈ due ∨ k ∈ job.tx.code.written view) :
    Faithful workers id state view due stored (.committing job cache)

/-- **The worker's invariant**: the dispatches it has completed, of the given
codes, did what the codes do alone on `data₀`, and touched its own keys only. -/
def Faithful (workers : List ThreadId) (data₀ : Key → Value) (id : ThreadId) (state : StateMap)
    (codes : List (Storage (Except DispatchError Unit))) (stored : List Key) (pc : Pc) : Prop :=
  ∃ view, runAll codes data₀ = .ok view ∧ (∀ k ∈ touchedAll codes data₀, Owns id state k) ∧
    pc.Faithful workers id state view (writtenAll codes data₀) stored

variable {workers : List ThreadId} {data₀ view : Key → Value} {id v : ThreadId}
  {state state' : StateMap} {codes : List (Storage (Except DispatchError Unit))}
  {due stored : List Key} {pc : Pc} {wk : Worker} {m : Move} {job : Job}

theorem Pc.Results.executes {result : Except DispatchError Unit} (h : pc.Results job result) :
    pc.Executes job := by cases h <;> constructor

/-- The others leave the worker's invariant alone. -/
theorem Faithful.of_other (h : Faithful workers data₀ v state codes stored pc)
    (ht : Touch id state state') (hv : v ≠ id) :
    Faithful workers data₀ v state' codes stored pc := by
  obtain ⟨view, hrun, htouched, hpc⟩ := h
  refine ⟨view, hrun, fun k hk => ht.owns (htouched k hk), ?_⟩
  have kept : ∀ k, Owns v state k → state'.data k = state.data k := fun k hk =>
    ht.data_of_not_owns fun ho => hv (Option.some.inj (hk.symm.trans ho))
  cases hpc with
  | outside hpc hsync hstored => exact .outside hpc (hsync.of_other ht hv) hstored
  | executing hsync hstored htracks hstop =>
    exact .executing (hsync.of_other ht hv) hstored
      (htracks.mono (fun _ => ht.owns) fun _ _ => rfl) hstop
  | refused hsync hstored howner hne howns hrefused =>
    exact .refused (hsync.of_other ht hv) hstored howner hne (howns.imp fun _ => ht.owns) hrefused
  | recheck hsync hstored htracks hstop hpending =>
    exact .recheck (hsync.of_other ht hv) hstored
      (htracks.mono (fun _ => ht.owns) fun _ _ => rfl) hstop
      fun key hkey => ⟨(hpending key hkey).1, ht.pending hv (hpending key hkey).2⟩
  | committing hrun htouched hsync hcached hstored =>
    refine .committing hrun (fun k hk => ht.owns (htouched k hk)) (fun k hk => ?_)
      (fun k hk => ht.owns (hcached k hk)) hstored
    have hk := (ht.owns_iff hv).mp hk
    rw [overlay_congr (kept k hk)]
    exact hsync k hk

/-! ### The worker's own steps -/

/-- Outside a dispatch, control points do not matter. -/
theorem Faithful.turn (h : Faithful workers data₀ id state codes stored pc)
    (hpc : pc.job = none) {pc' : Pc} (hpc' : pc'.job = none) :
    Faithful workers data₀ id state codes stored pc' := by
  obtain ⟨view, hrun, htouched, hold⟩ := h
  refine ⟨view, hrun, htouched, ?_⟩
  cases hold with
  | outside _ hsync hstored => exact .outside hpc' hsync hstored
  | executing => exact (Option.some_ne_none _ hpc).elim
  | refused => exact (Option.some_ne_none _ hpc).elim
  | recheck => exact (Option.some_ne_none _ hpc).elim
  | committing => exact (Option.some_ne_none _ hpc).elim

theorem Faithful.start (h : Faithful workers data₀ id state codes stored pc)
    (hpc : pc.job = none) (caller : Caller) (tx : Transaction) :
    Faithful workers data₀ id state codes stored (.executing ⟨caller, tx⟩ tx.code ∅) := by
  obtain ⟨view, hrun, htouched, hold⟩ := h
  refine ⟨view, hrun, htouched, ?_⟩
  have hstop := tx.function.failStop_dispatch tx.signature.1
  cases hold with
  | outside _ hsync hstored => exact .executing hsync hstored (Tracks.start ..) hstop
  | executing => exact (Option.some_ne_none _ hpc).elim
  | refused => exact (Option.some_ne_none _ hpc).elim
  | recheck => exact (Option.some_ne_none _ hpc).elim
  | committing => exact (Option.some_ne_none _ hpc).elim

section
variable {code : Storage (Except DispatchError Unit)} {cache : Cache} {key : Key}

/-- The code goes on with what the worker sees under a key of its own. -/
theorem Pc.Faithful.granted (workers : List ThreadId) (job : Job) (hsync : Synced id state view)
    (hstored : ∀ k, k ∈ stored ↔ k ∈ due)
    (htracks : Tracks job.tx.code code (fun k => cache.lookup k) (Owns id state) view)
    (hstop : FailStop DispatchError.Reports Panic.IsExpect code) (hkey : accessKey code = some key)
    (hown : Owns id state key) :
    Pc.Faithful workers id state view due stored
      (.executing job (answer code cache (.ok (overlay (fun k => cache.lookup k) view key))).1
        (answer code cache (.ok (overlay (fun k => cache.lookup k) view key))).2) := by
  cases code with
  | done r => cases hkey
  | fault why => cases hkey
  | read k next =>
    obtain rfl := Option.some.inj hkey
    exact .executing hsync hstored (htracks.read hown) (hstop.2 _)
  | write k value next =>
    obtain rfl := Option.some.inj hkey
    refine .executing hsync hstored ?_ (hstop.2 ())
    rw [answer, Cache.lookup_insert]
    exact htracks.write hown

/-- The code has ended after a refusal. -/
theorem Pc.Faithful.denied (hsync : Synced id state view) (hstored : ∀ k, k ∈ stored ↔ k ∈ due)
    (hstop : FailStop DispatchError.Reports Panic.IsExpect code) (hkey : accessKey code = some key)
    {owner : ThreadId} (howner : owner ∈ workers) (hne : owner ≠ id)
    (howns : ∃ k, Owns owner state k) :
    Pc.Faithful workers id state view due stored
      (.executing job (answer code cache (.error owner)).1 (answer code cache (.error owner)).2) := by
  cases code with
  | done r => cases hkey
  | fault why => cases hkey
  | read k next => exact .refused hsync hstored howner hne howns (hstop.1 owner)
  | write k value next => exact .refused hsync hstored howner hne howns (hstop.1 owner)

end

/-- A step inside the dispatch of `job`: the worker changes in its control point
only, and its invariant is kept. -/
structure Inside (workers : List ThreadId) (data₀ : Key → Value) (id : ThreadId) (wk : Worker)
    (state : StateMap) (codes : List (Storage (Except DispatchError Unit))) (stored : List Key)
    (job : Job) (m : Move) : Prop where
  worker : m.worker = { wk with pc := m.worker.pc }
  executes : m.worker.pc.Executes job
  forward : m.forward = none
  events : ∀ e ∈ m.events, e.IsAccess ∧ e.By id
  touch : Touch id state m.state
  faithful : Faithful workers data₀ id m.state codes (stored ++ storedBy (some id) m.events)
    m.worker.pc

section
variable {code : Storage (Except DispatchError Unit)} {cache : Cache} {key : Key}

theorem Faithful.access
    (h : Faithful workers data₀ id state codes stored (.executing job code cache))
    (hu : Untouched workers data₀ state) (hkey : accessKey code = some key) :
    Inside workers data₀ id wk state codes stored job
      (access id wk state job code cache key) := by
  obtain ⟨view, hrun, htouched, hpc⟩ := h
  have kept : ∀ {pc' : Pc}, pc'.Executes job →
      pc'.Faithful workers id state view (writtenAll codes data₀) stored →
      Inside workers data₀ id wk state codes stored job (quiet { wk with pc := pc' } state) := by
    intro pc' hexec hpc'
    refine ⟨rfl, hexec, rfl, by simp [quiet], .same, ?_⟩
    have hnil : stored ++ storedBy (some id) (quiet { wk with pc := pc' } state).events = stored :=
      List.append_nil _
    rw [hnil]
    exact ⟨view, hrun, htouched, hpc'⟩
  cases hpc with
  | outside hpc => exact (Option.some_ne_none _ hpc).elim
  | refused _ _ _ _ _ hrefused =>
    cases code with
    | done r => cases hkey
    | fault why => cases hkey
    | read k next => exact hrefused.elim
    | write k value next => exact hrefused.elim
  | executing hsync hstored htracks hstop =>
    unfold Worker.access
    split
    · rename_i value hc
      have hview : overlay (fun k => cache.lookup k) view key = value :=
        overlay_of_some (c := fun k => cache.lookup k) hc
      refine kept (.executing ..) ?_
      rw [← hview]
      exact .granted _ _ hsync hstored htracks hstop hkey (htracks.cached key (by simp [hc]))
    · rename_i hc
      have hview : overlay (fun k => cache.lookup k) view key = view key :=
        overlay_of_none (c := fun k => cache.lookup k) hc
      split
      · rename_i outcome ho
        have hread := readSection_done ho
        refine kept (.executing ..) ?_
        unfold atomicRead at hread
        split at hread
        · rename_i owner ht
          by_cases hid : owner = id
          · subst hid
            simp only [↓reduceIte, Prod.mk.injEq, and_true] at hread
            rw [← hread, hsync key ht, ← hview]
            exact .granted _ _ hsync hstored htracks hstop hkey ht
          · simp only [hid, ↓reduceIte, Prod.mk.injEq, and_true] at hread
            rw [← hread]
            exact .denied hsync hstored hstop hkey (hu.taints key owner ht) hid ⟨key, ht⟩
        · rename_i ht
          -- An untainted key is not decided under the read lock.
          obtain ⟨-, hstate⟩ := Prod.mk.inj hread
          have := congrFun (congrArg StateType.taint hstate) key
          rw [ht, StateType.taint_insert, Function.update_self] at this
          cases this
      · rename_i branch hb
        refine kept (.recheck ..) (.recheck hsync hstored htracks hstop fun k hk => ?_)
        obtain rfl := Option.some.inj (hkey.symm.trans hk)
        exact ⟨hc, .of_readSection hb⟩

theorem Faithful.accessRecheck {branch : Recheck}
    (h : Faithful workers data₀ id state codes stored (.recheck job code cache branch))
    (hu : Untouched workers data₀ state) (hkey : accessKey code = some key) :
    Inside workers data₀ id wk state codes stored job
      (accessRecheck id wk state job code cache branch key) := by
  obtain ⟨view, hrun, htouched, hpc⟩ := h
  cases hpc with
  | outside hpc => exact (Option.some_ne_none _ hpc).elim
  | recheck hsync hstored htracks hstop hpending =>
    obtain ⟨hc, hpend⟩ := hpending key hkey
    have hview : overlay (fun k => cache.lookup k) view key = view key :=
      overlay_of_none (c := fun k => cache.lookup k) hc
    have hevents : ∀ e ∈ (if state.lookup key = none then [Event.created key] else []),
        e.IsAccess ∧ e.By id := by
      intro e he
      split at he
      · rw [List.mem_singleton.mp he]; exact ⟨trivial, trivial⟩
      · cases he
    have hnone : storedBy (some id) (if state.lookup key = none then [Event.created key] else []) =
        [] := by split <;> rfl
    rw [Worker.accessRecheck, readRecheck_eq hpend]
    simp only [atomicRead]
    cases ht : state.taint key with
    | some owner =>
      have hid : owner ≠ id := fun he => hpend.foreign (he ▸ ht)
      simp only [hid, ↓reduceIte]
      refine ⟨rfl, .executing .., rfl, hevents, .same, view, hrun, htouched, ?_⟩
      simp only [answered, hnone, List.append_nil]
      exact .denied hsync hstored hstop hkey (hu.taints key owner ht) hid ⟨key, ht⟩
    | none =>
      have htouch : Touch id state (state.insert key ⟨state.data key, some id⟩) := .taint key ht
      have hkeep : ∀ k ∈ touchedAll codes data₀,
          Owns id (state.insert key ⟨state.data key, some id⟩) k := fun k hk =>
        htouch.owns (htouched k hk)
      have hown : Owns id (state.insert key ⟨state.data key, some id⟩) key := by simp [Owns]
      -- Nobody has changed the key, this worker included.
      have hkeyview : state.data key = view key := by
        rw [hu.fresh key ht, runAll_untouched hrun key]
        intro hmem
        have := htouched key hmem
        rw [Owns, ht] at this
        cases this
      have hsync' : Synced id (state.insert key ⟨state.data key, some id⟩) view := by
        intro k hk
        rw [StateType.data_insert, Function.update_eq_self]
        by_cases hkk : k = key
        · rw [hkk]; exact hkeyview
        · exact hsync k (by simpa [Owns, hkk] using hk)
      refine ⟨rfl, .executing .., rfl, hevents, htouch, view, hrun, hkeep, ?_⟩
      simp only [answered, hnone, List.append_nil]
      rw [hkeyview, ← hview, hview, ← hkeyview]
      have := Pc.Faithful.granted workers job hsync' hstored
        (htracks.mono (fun _ => htouch.owns) fun _ _ => rfl) hstop hkey hown
      rw [hview, ← hkeyview] at this
      exact this

end

theorem Faithful.beginCommit {cache : Cache}
    (h : Faithful workers data₀ id state codes stored (.executing job (.done (.ok ())) cache)) :
    Faithful workers data₀ id state codes stored (.committing job cache) := by
  obtain ⟨view, hrun, htouched, hpc⟩ := h
  refine ⟨view, hrun, htouched, ?_⟩
  cases hpc with
  | outside hpc => exact (Option.some_ne_none _ hpc).elim
  | refused _ _ _ _ _ hrefused => exact hrefused.elim
  | executing hsync hstored htracks hstop =>
    obtain ⟨hdone, hkeys, hwritten⟩ := htracks.run_of_done (e := view) fun _ _ => rfl
    refine .committing hdone hkeys (fun k hk => ?_) htracks.cached fun k => ?_
    · exact overlay_congr (hsync k hk)
    · rw [hstored k, hwritten k]

/-- An entry of the cache goes into the state. -/
theorem Faithful.commit {cache : Cache} {key : Key} {value : Value} {state' : StateMap}
    (h : Faithful workers data₀ id state codes stored (.committing job cache))
    (hkey : cache.lookup key = some value)
    (hcommit : commitEntry id state key value = .ok state') :
    Touch id state state' ∧
      Faithful workers data₀ id state' codes (stored ++ [key])
        (.committing job (cache.erase key)) := by
  obtain ⟨view, hrun, htouched, hpc⟩ := h
  cases hpc with
  | outside hpc => exact (Option.some_ne_none _ hpc).elim
  | committing hjob hkeys hsync hcached hstored =>
    have hown := hcached key (by simp [hkey])
    obtain rfl : state.insert key ⟨value, some id⟩ = state' :=
      Except.ok.inj ((commitEntry_eq hown).symm.trans hcommit)
    have htouch : Touch id state (state.insert key ⟨value, some id⟩) := .commit key value hown
    have herase : ∀ k, k ≠ key → (cache.erase key).lookup k = cache.lookup k := fun k hk =>
      Finmap.lookup_erase_ne hk
    refine ⟨htouch, view, hrun, fun k hk => htouch.owns (htouched k hk), ?_⟩
    refine .committing hjob (fun k hk => htouch.owns (hkeys k hk)) (fun k hk => ?_)
      (fun k hk => ?_) fun k => ?_
    · by_cases hkk : k = key
      · subst hkk
        rw [← hsync k hown, overlay_of_none (c := fun j => (cache.erase k).lookup j) (Finmap.lookup_erase k cache),
          overlay_of_some (c := fun k => cache.lookup k) hkey]
        simp
      · have hk : Owns id state k := by simpa [Owns, hkk] using hk
        rw [← hsync k hk, overlay, overlay, herase k hkk]
        simp [hkk]
    · have hkk : k ≠ key := by rintro rfl; exact hk (Finmap.lookup_erase k cache)
      exact htouch.owns (hcached k (herase k hkk ▸ hk))
    · rw [← hstored k, List.mem_append, List.mem_singleton]
      by_cases hkk : k = key
      · subst hkk; simp [hkey]
      · simp [hkk, herase k hkk]

theorem Faithful.no_commitPanic {cache : Cache} {key : Key} {value : Value} {why : Panic}
    (h : Faithful workers data₀ id state codes stored (.committing job cache))
    (hkey : cache.lookup key = some value) : commitEntry id state key value ≠ .error why := by
  obtain ⟨view, hrun, htouched, hpc⟩ := h
  cases hpc with
  | outside hpc => exact (Option.some_ne_none _ hpc).elim
  | committing hjob hkeys hsync hcached hstored =>
    rw [commitEntry_eq (hcached key (by simp [hkey]))]
    nofun

/-- **A step inside a dispatch** keeps the worker's invariant, unless the body of
the call panics or the dispatch has its result. -/
theorem Faithful.inside (h : Faithful workers data₀ id state codes stored wk.pc)
    (hu : Untouched workers data₀ state) (hstep : Step id wk state m)
    (hexec : wk.pc.Executes job) :
    Inside workers data₀ id wk state codes stored job m ∨
      (∃ why, m = quiet { wk with pc := .dispatchPanicked why } state) ∨
      ∃ result, wk.pc.Results job result ∧
        m = executeOrForward id wk state job (toRuntimeDispatchResult result) := by
  have outside : ∀ {pc : Pc}, wk.pc = pc → pc.job = none → False := by
    rintro pc rfl hn
    rw [hexec.job_eq] at hn
    cases hn
  cases hstep with
  | access hpc hkey =>
    rw [hpc] at h hexec
    obtain rfl := hexec.unique (.executing ..)
    exact .inl (h.access hu hkey)
  | accessRecheck hpc hkey =>
    rw [hpc] at h hexec
    obtain rfl := hexec.unique (.recheck ..)
    exact .inl (h.accessRecheck hu hkey)
  | beginCommit hpc =>
    rw [hpc] at h hexec
    obtain rfl := hexec.unique (.executing ..)
    refine .inl ⟨rfl, .committing .., rfl, by simp [quiet], .same, ?_⟩
    simpa [quiet, storedBy] using h.beginCommit
  | commit hpc hkey hcommit =>
    rw [hpc] at h hexec
    obtain rfl := hexec.unique (.committing ..)
    obtain ⟨htouch, hfaithful⟩ := h.commit hkey hcommit
    refine .inl ⟨rfl, .committing .., rfl, fun e he => ?_, htouch, ?_⟩
    · rw [List.mem_singleton.mp he]; exact ⟨trivial, rfl⟩
    · simpa [storedBy, Event.storedBy] using hfaithful
  | commitPanic hpc hkey hcommit =>
    rw [hpc] at h
    exact absurd hcommit (h.no_commitPanic hkey)
  | settle hres =>
    obtain rfl := hres.executes.unique hexec
    exact .inr (.inr ⟨_, hres, rfl⟩)
  | fault hpc => exact .inr (.inl ⟨_, rfl⟩)
  | unexpected hpc =>
    generalize wk.pc = pc at hexec hpc
    cases hexec <;> exact hpc.elim
  | setup hpc | park hpc | takeAuthoring hpc | takeValidating hpc | takeTerminate hpc
  | takeTransaction hpc | distributionDone hpc | report hpc | taskDone hpc | pollMaster hpc
  | pollOthers hpc | takeForwarded hpc | takeForValidation hpc | mistagged hpc
  | validationDone hpc | validateRead hpc | validateWrite hpc | validateEnd hpc
  | validateRefused hpc | validateFault hpc | sendValidationReport hpc
  | unexpectedFromOthers hpc => exact (outside hpc rfl).elim

/-- **The result of a dispatch**: the code has run to its end, on what the worker
sees; or the owner of a key, another worker, has refused it. -/
theorem Faithful.settle (h : Faithful workers data₀ id state codes stored pc)
    {result : Except DispatchError Unit} (hres : pc.Results job result) :
    (∃ success, toRuntimeDispatchResult result = .ok success ∧
      ∀ pc', (pc'.job = none) →
        Faithful workers data₀ id state (codes ++ [job.tx.code]) stored pc') ∨
    ∃ owner ∈ workers, owner ≠ id ∧ (∃ k, Owns owner state k) ∧ ∃ corrupt,
      toRuntimeDispatchResult result = .error (.tainted owner corrupt) ∧
      ∀ pc', (pc'.job = none) → Faithful workers data₀ id state codes stored pc' := by
  obtain ⟨view, hrun, htouched, hpc⟩ := h
  -- What the dispatch adds, once its code is known to run from `view` to `view'`.
  have done : ∀ {r : Except DispatchError Unit} {view' : Key → Value},
      job.tx.code.run view = .ok (r, view') → (∀ k ∈ job.tx.code.touched view, Owns id state k) →
      Synced id state view' →
      (∀ k, k ∈ stored ↔ k ∈ writtenAll codes data₀ ∨ k ∈ job.tx.code.written view) →
      ∀ pc', (pc'.job = none) →
        Faithful workers data₀ id state (codes ++ [job.tx.code]) stored pc' := by
    intro r view' hjob hkeys hsync hstored pc' hpc'
    refine ⟨view', runAll_concat hrun hjob, fun k hk => ?_, .outside hpc' hsync fun k => ?_⟩
    · rw [touchedAll_concat hrun, List.mem_append] at hk
      exact hk.elim (htouched k) (hkeys k)
    · rw [writtenAll_concat hrun, List.mem_append]
      exact hstored k
  cases hres with
  | failed job e cache =>
    cases hpc with
    | outside hpc => exact (Option.some_ne_none _ hpc).elim
    | executing hsync hstored htracks hstop =>
      obtain ⟨hjob, hkeys, -⟩ := htracks.run_of_done (e := view) fun _ _ => rfl
      obtain ⟨why, rfl⟩ := OuterCall.isLogic_of_run hjob
      obtain ⟨hsame, hwritten⟩ := OuterCall.unchanged_of_run hjob
      rw [hsame] at hjob
      refine .inl ⟨_, rfl, done hjob hkeys hsync fun k => ?_⟩
      rw [hstored k, show job.tx.code.written view = [] from hwritten]
      simp
    | refused hsync hstored howner hne howns hrefused =>
      obtain ⟨corrupt, rfl⟩ := hrefused
      exact .inr ⟨_, howner, hne, howns, corrupt, rfl, fun pc' hpc' =>
        ⟨view, hrun, htouched, .outside hpc' hsync hstored⟩⟩
  | committed job =>
    cases hpc with
    | outside hpc => exact (Option.some_ne_none _ hpc).elim
    | committing hjob hkeys hsync hcached hstored =>
      refine .inl ⟨_, rfl, done hjob hkeys (fun k hk => ?_) fun k => ?_⟩
      · exact (hsync k hk).symm ▸ rfl
      · simpa using hstored k

end Worker
end SonicChain
