import SonicChain.Record
import SonicChain.System

/-! # The keys on record

Every key that a step puts into the map goes down in the record, as created by a read or
as stored, and every entry that a step taints is tainted with a worker.
-/

namespace SonicChain
open Worker

section
variable [Ed25519]

/-- The keys that have come into the map are on record, and no others are; a read has
created the entries that were not there before. -/
structure Recorded (state state' : StateMap) (events : List Event) : Prop where
  keys : ∀ k, k ∈ state' ↔ k ∈ state ∨ k ∈ createdKeys events ∨ ∃ t, k ∈ storedBy t events
  absent : ∀ k ∈ createdKeys events, k ∉ state

/-- The entries that have come to be tainted are so with one of the threads. -/
def TaintedBy (threads : ThreadId → Prop) (state state' : StateMap) : Prop :=
  ∀ k o, state'.taint k = some o → state.taint k = some o ∨ threads o

theorem mem_storedBy {t : Option ThreadId} {key : Key} {log : List Event} :
    key ∈ storedBy t log ↔ .stored t key ∈ log := by
  constructor
  · intro hk
    obtain ⟨e, he, hek⟩ := List.mem_filterMap.mp hk
    cases e with
    | stored t' key' =>
      rw [Event.storedBy] at hek
      split at hek
      · rename_i ht
        obtain rfl := Option.some.inj hek
        exact ht ▸ he
      · cases hek
    | _ => cases hek
  · intro he
    exact List.mem_filterMap.mpr ⟨_, he, by rw [Event.storedBy, if_pos rfl]⟩

section
variable {state state' state'' : StateMap} {events events' : List Event} {key : Key}
  {threads : ThreadId → Prop}

theorem Recorded.same (h : ∀ e ∈ events, e.created? = none ∧ ∀ t, e.storedBy t = none) :
    Recorded state state events := by
  have hcreated : createdKeys events = [] := List.filterMap_eq_nil_iff.mpr fun e he => (h e he).1
  have hstored : ∀ t, storedBy t events = [] := fun t =>
    List.filterMap_eq_nil_iff.mpr fun e he => (h e he).2 t
  refine ⟨fun k => ?_, fun k hk => ?_⟩
  · simp [hcreated, hstored]
  · rw [hcreated] at hk
    cases hk

theorem Recorded.trans (h : Recorded state state' events) (h' : Recorded state' state'' events') :
    Recorded state state'' (events ++ events') := by
  refine ⟨fun k => ?_, fun k hk hmem => ?_⟩
  · simp only [h'.keys k, h.keys k, createdKeys_append, storedBy_append, List.mem_append]
    constructor
    · rintro ((hk | hk | ⟨t, hk⟩) | hk | ⟨t, hk⟩)
      · exact .inl hk
      · exact .inr (.inl (.inl hk))
      · exact .inr (.inr ⟨t, .inl hk⟩)
      · exact .inr (.inl (.inr hk))
      · exact .inr (.inr ⟨t, .inr hk⟩)
    · rintro (hk | (hk | hk) | ⟨t, hk | hk⟩)
      · exact .inl (.inl hk)
      · exact .inl (.inr (.inl hk))
      · exact .inr (.inl hk)
      · exact .inl (.inr (.inr ⟨t, hk⟩))
      · exact .inr (.inr ⟨t, hk⟩)
  · rw [createdKeys_append, List.mem_append] at hk
    rcases hk with hk | hk
    · exact h.absent k hk hmem
    · exact h'.absent k hk ((h.keys k).mpr (.inl hmem))

theorem Recorded.stored (t : Option ThreadId) (x : StateValue Value ThreadId) :
    Recorded state (state.insert key x) [.stored t key] := by
  refine ⟨fun k => ?_, fun k hk => absurd hk List.not_mem_nil⟩
  rw [StateType.mem_insert]
  have hcreated : createdKeys [.stored t key] = [] := rfl
  simp only [hcreated, List.not_mem_nil, false_or]
  constructor
  · rintro (rfl | hk)
    · exact .inr ⟨t, mem_storedBy.mpr (List.mem_singleton_self _)⟩
    · exact .inl hk
  · rintro (hk | ⟨t', hk⟩)
    · exact .inr hk
    · obtain ⟨-, rfl⟩ := Event.stored.inj (List.mem_singleton.mp (mem_storedBy.mp hk))
      exact .inl rfl

theorem Recorded.created (x : StateValue Value ThreadId) (h : state.lookup key = none) :
    Recorded state (state.insert key x) [.created key] := by
  have hcreated : createdKeys [.created key] = [key] := rfl
  have hstored : ∀ t, storedBy t [.created key] = [] := fun _ => rfl
  refine ⟨fun k => ?_, fun k hk => ?_⟩
  · rw [StateType.mem_insert]
    simp only [hcreated, hstored, List.mem_singleton, List.not_mem_nil, exists_false, or_false]
    exact or_comm
  · rw [hcreated, List.mem_singleton] at hk
    rw [hk]
    exact Finmap.lookup_eq_none.mp h

/-- An entry that was there already. -/
theorem Recorded.present {x : StateValue Value ThreadId} (h : state.lookup key ≠ none) :
    Recorded state (state.insert key x) [] := by
  have hkey : key ∈ state := by
    rw [← Finmap.lookup_isSome, Option.isSome_iff_ne_none]
    exact h
  refine ⟨fun k => ?_, fun k hk => absurd hk List.not_mem_nil⟩
  rw [StateType.mem_insert]
  have hcreated : createdKeys [] = [] := rfl
  have hstored : ∀ t, storedBy t [] = [] := fun _ => rfl
  simp only [hcreated, hstored, List.not_mem_nil, exists_false, or_false]
  constructor
  · rintro (rfl | hk)
    · exact hkey
    · exact hk
  · exact .inr

omit [Ed25519] in
theorem TaintedBy.same : TaintedBy threads state state := fun _ _ h => .inl h

omit [Ed25519] in
theorem TaintedBy.trans (h : TaintedBy threads state state') (h' : TaintedBy threads state' state'') :
    TaintedBy threads state state'' := fun k o hk =>
  (h' k o hk).elim (h k o) .inr

omit [Ed25519] in
theorem TaintedBy.insert {x : StateValue Value ThreadId} (hx : ∀ o, x.taint = some o → threads o) :
    TaintedBy threads state (state.insert key x) := by
  intro k o hk
  rw [StateType.taint_insert] at hk
  by_cases hkk : k = key
  · subst hkk
    rw [Function.update_self] at hk
    exact .inr (hx o hk)
  · rw [Function.update_of_ne hkk] at hk
    exact .inl hk

end

/-! ## Steps -/

section
variable {id : ThreadId} {wk : Worker} {state : StateMap} {m : Move}

theorem recorded_of_quiet : Recorded state state [] ∧ TaintedBy (· = id) state state :=
  ⟨.same fun _ he => absurd he List.not_mem_nil, .same⟩

theorem recorded_of_one {e : Event} (hcreated : e.created? = none)
    (hstored : ∀ t, e.storedBy t = none) :
    Recorded state state [e] ∧ TaintedBy (· = id) state state := by
  refine ⟨.same fun e' he => ?_, .same⟩
  rw [List.mem_singleton.mp he]
  exact ⟨hcreated, hstored⟩

theorem Worker.accessRecheck_recorded {job : Job} {code : Storage (Except DispatchError Unit)}
    {cache : Cache} {branch : TaintState.Recheck} {key : Key} :
    Recorded state (accessRecheck id wk state job code cache branch key).state
        (accessRecheck id wk state job code cache branch key).events ∧
      TaintedBy (· = id) state (accessRecheck id wk state job code cache branch key).state := by
  unfold accessRecheck
  split
  · rename_i outcome state' hrecheck
    dsimp only [answered]
    unfold TaintState.readRecheck at hrecheck
    split at hrecheck
    · rename_i entry hentry
      rw [if_neg (by rw [hentry]; exact Option.some_ne_none _)]
      split at hrecheck
      · split at hrecheck
        · cases hrecheck
        · obtain ⟨-, rfl⟩ := Prod.mk.inj (Except.ok.inj hrecheck)
          exact recorded_of_quiet
      · obtain ⟨-, rfl⟩ := Prod.mk.inj (Except.ok.inj hrecheck)
        exact ⟨.present (by rw [hentry]; exact Option.some_ne_none _),
          .insert fun o ho => (Option.some.inj ho).symm⟩
    · cases hrecheck
    · rename_i entry hentry
      rw [if_neg (by rw [hentry]; exact Option.some_ne_none _)]
      split at hrecheck
      · split at hrecheck
        · cases hrecheck
        · obtain ⟨-, rfl⟩ := Prod.mk.inj (Except.ok.inj hrecheck)
          exact recorded_of_quiet
      · cases hrecheck
    · rename_i hentry
      rw [if_pos hentry]
      obtain ⟨-, rfl⟩ := Prod.mk.inj (Except.ok.inj hrecheck)
      exact ⟨.created _ hentry, .insert fun o ho => (Option.some.inj ho).symm⟩
  · exact recorded_of_quiet

/-- **What a worker puts into the map is on record**, and what it taints is its own. -/
theorem Worker.Step.recorded (h : Step id wk state m) :
    Recorded state m.state m.events ∧ TaintedBy (· = id) state m.state := by
  cases h with
  | access hpc hkey =>
    unfold Worker.access
    split
    · exact recorded_of_quiet
    · split
      · exact recorded_of_quiet
      · exact recorded_of_quiet
  | accessRecheck hpc hkey => exact accessRecheck_recorded
  | @commit job cache key value state' hpc hkey hcommit =>
    unfold ConcurrentRuntime.commitEntry at hcommit
    split at hcommit
    · split at hcommit
      · obtain rfl := Except.ok.inj hcommit
        exact ⟨.stored _ _, .insert fun o ho => (Option.some.inj ho).symm⟩
      · cases hcommit
    · cases hcommit
  | settle hres =>
    unfold executeOrForward
    dsimp only
    repeat' split
    all_goals first | exact recorded_of_quiet | exact recorded_of_one rfl fun _ => rfl
  | validateWrite hpc => exact ⟨.stored _ _, .insert fun o ho => by cases ho⟩
  | _ => first | exact recorded_of_quiet | exact recorded_of_one rfl fun _ => rfl

end

section
variable {exec : Executor} {s s' : System}

/-- **What a thread puts into the map is on record**, and what it taints is a worker's. -/
theorem System.Threads.recorded (h : s.Threads exec s') :
    (∃ events, s'.log = s.log ++ events ∧ Recorded s.state s'.state events) ∧
      TaintedBy (· ∈ exec.workers) s.state s'.state := by
  have aside : ∀ {s' : System}, s'.state = s.state → s'.log = s.log →
      (∃ events, s'.log = s.log ++ events ∧ Recorded s.state s'.state events) ∧
        TaintedBy (· ∈ exec.workers) s.state s'.state := by
    intro s' hstate hlog
    rw [hstate, hlog]
    exact ⟨⟨[], (List.append_nil _).symm, .same fun _ he => absurd he List.not_mem_nil⟩, .same⟩
  cases h with
  | worker hw hstep =>
    obtain ⟨hrecorded, htainted⟩ := hstep.recorded
    exact ⟨⟨_, rfl, hrecorded⟩, fun k o hk => (htainted k o hk).imp_right
      fun ho : o = _ => ho ▸ hw⟩
  | master hstep =>
    unfold System.masterStep at hstep
    split at hstep
    · rename_i effect todo htodo
      obtain rfl := Option.some.inj hstep
      cases effect <;> exact aside rfl rfl
    · repeat' split at hstep
      all_goals cases hstep
      all_goals first
        | exact aside rfl rfl
        | exact ⟨⟨_, rfl, .stored _ _⟩, .insert fun o ho => by cases ho⟩
        | exact ⟨⟨_, rfl, .same fun e he => List.mem_singleton.mp he ▸ ⟨rfl, fun _ => rfl⟩⟩, .same⟩
        | (rename_i return_to _; cases return_to <;> exact aside rfl rfl)
  | collect hw hstep =>
    unfold System.collect at hstep
    split at hstep
    · dsimp only at hstep
      split at hstep <;> obtain rfl := Option.some.inj hstep <;>
        exact ⟨⟨_, rfl, .same fun e he => List.mem_singleton.mp he ▸ ⟨rfl, fun _ => rfl⟩⟩, .same⟩
    · dsimp only at hstep
      split at hstep <;> obtain rfl := Option.some.inj hstep <;>
        exact ⟨⟨_, rfl, .same fun e he => List.mem_singleton.mp he ▸ ⟨rfl, fun _ => rfl⟩⟩, .same⟩
    · cases hstep

/-- **The record of a run accounts for the keys of the map.** -/
theorem System.recorded_of_run {as : List Action} (has : ∀ a ∈ as, a.OfThread)
    (h : Transition.exec (System.step exec) as s = some s') :
    (∃ events, s'.log = s.log ++ events ∧ Recorded s.state s'.state events) ∧
      TaintedBy (· ∈ exec.workers) s.state s'.state := by
  refine Transition.exec_invariant_of
    (I := fun s' => (∃ events, s'.log = s.log ++ events ∧ Recorded s.state s'.state events) ∧
      TaintedBy (· ∈ exec.workers) s.state s'.state) (fun s₁ a s₂ ha hi hs => ?_) has h
    ⟨⟨[], (List.append_nil _).symm, .same fun _ he => absurd he List.not_mem_nil⟩, .same⟩
  obtain ⟨⟨events, hlog, hrecorded⟩, htainted⟩ := hi
  obtain ⟨⟨events', hlog', hrecorded'⟩, htainted'⟩ := (System.threads_of_step ha hs).recorded
  exact ⟨⟨events ++ events', by rw [hlog', hlog, List.append_assoc], hrecorded.trans hrecorded'⟩,
    htainted.trans htainted'⟩

end
end
end SonicChain
