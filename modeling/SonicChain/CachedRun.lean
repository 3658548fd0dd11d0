import SonicChain.StoreDiscipline

/-! # Running a program over a cache of its writes

Code that shares a store with others may keep its writes to itself until it has
ended, and may be granted the keys it accesses one at a time.  As long as
nothing is refused, it then does what it would do alone in place: `Tracks` is
the invariant of such an execution, and what it gives in the end
(`Tracks.run_of_done`) says so.  What others do to keys that are not granted
does not disturb it (`Tracks.mono`).
-/

namespace StoreProgram
variable {K V E F α : Type}

/-- The store as seen through a cache of pending writes. -/
def overlay (c : K → Option V) (d : K → V) : K → V := fun k => (c k).getD (d k)

@[simp] theorem overlay_none (d : K → V) : overlay (fun _ => none) d = d := rfl

theorem overlay_of_some {c : K → Option V} {d : K → V} {k : K} {v : V} (h : c k = some v) :
    overlay c d k = v := by simp [overlay, h]

theorem overlay_of_none {c : K → Option V} {d : K → V} {k : K} (h : c k = none) :
    overlay c d k = d k := by simp [overlay, h]

/-- The view of a key does not depend on the store elsewhere. -/
theorem overlay_congr {c : K → Option V} {d e : K → V} {k : K} (h : e k = d k) :
    overlay c e k = overlay c d k := by simp [overlay, h]

variable [DecidableEq K]

/-- Caching a write is writing in place. -/
theorem overlay_update (c : K → Option V) (d : K → V) (k : K) (v : V) :
    overlay (Function.update c k (some v)) d = Function.update (overlay c d) k v := by
  funext j
  by_cases hj : j = k
  · subst hj; simp [overlay]
  · simp [overlay, hj]

/-- The program `p` was started over an empty cache and has come to `rest`, its
writes so far in `c`, without a refusal.  Only the `owned` part of the store is
settled: wherever a store agrees with `data` on it, running `p` there is running
what is left over the cache. -/
structure Tracks (p rest : StoreProgram K V E F α) (c : K → Option V) (owned : K → Prop)
    (data : K → V) : Prop where
  run_eq : ∀ e, (∀ k, owned k → e k = data k) → p.run e = rest.run (overlay c e)
  touched : ∀ e, (∀ k, owned k → e k = data k) →
    ∀ k ∈ p.touched e, owned k ∨ k ∈ rest.touched (overlay c e)
  pending : ∀ e, (∀ k, owned k → e k = data k) →
    ∀ k ∈ rest.touched (overlay c e), k ∈ p.touched e
  written : ∀ e, (∀ k, owned k → e k = data k) →
    ∀ k, k ∈ p.written e ↔ c k ≠ none ∨ k ∈ rest.written (overlay c e)
  cached : ∀ k, c k ≠ none → owned k

namespace Tracks
variable {p : StoreProgram K V E F α} {c : K → Option V} {owned : K → Prop} {data : K → V}

theorem start (p : StoreProgram K V E F α) (owned : K → Prop) (data : K → V) :
    Tracks p p (fun _ => none) owned data where
  run_eq _ _ := rfl
  touched _ _ _ hk := Or.inr hk
  pending _ _ _ hk := hk
  written _ _ k := by simp
  cached k hk := absurd rfl hk

/-- Keys may be granted, and the store may change outside what is owned. -/
theorem mono {rest : StoreProgram K V E F α} {owned' : K → Prop} {data' : K → V}
    (h : Tracks p rest c owned data) (howned : ∀ k, owned k → owned' k)
    (hdata : ∀ k, owned k → data' k = data k) : Tracks p rest c owned' data' := by
  have agree : ∀ e : K → V, (∀ k, owned' k → e k = data' k) → ∀ k, owned k → e k = data k :=
    fun e he k hk => (he k (howned k hk)).trans (hdata k hk)
  refine ⟨fun e he => h.run_eq e (agree e he), fun e he k hk => ?_,
    fun e he => h.pending e (agree e he), fun e he => h.written e (agree e he),
    fun k hk => howned k (h.cached k hk)⟩
  exact (h.touched e (agree e he) k hk).imp (howned k) id

/-- An owned key is read through the cache. -/
theorem read {k : K} {next : Except E V → StoreProgram K V E F α}
    (h : Tracks p (.read k next) c owned data) (hk : owned k) :
    Tracks p (next (.ok (overlay c data k))) c owned data := by
  have seen : ∀ e : K → V, (∀ j, owned j → e j = data j) → overlay c e k = overlay c data k :=
    fun e he => overlay_congr (he k hk)
  refine ⟨fun e he => ?_, fun e he j hj => ?_, fun e he j hj => ?_, fun e he j => ?_, h.cached⟩
  · rw [← seen e he]; exact h.run_eq e he
  · rcases h.touched e he j hj with ho | ht
    · exact Or.inl ho
    · rcases List.mem_cons.mp ht with rfl | ht
      · exact Or.inl hk
      · rw [← seen e he]; exact Or.inr ht
  · rw [← seen e he] at hj
    exact h.pending e he j (List.mem_cons_of_mem _ hj)
  · rw [← seen e he]; exact h.written e he j

/-- A write to an owned key goes into the cache. -/
theorem write {k : K} {v : V} {next : Except E Unit → StoreProgram K V E F α}
    (h : Tracks p (.write k v next) c owned data) (hk : owned k) :
    Tracks p (next (.ok ())) (Function.update c k (some v)) owned data := by
  refine ⟨fun e he => ?_, fun e he j hj => ?_, fun e he j hj => ?_, fun e he j => ?_,
    fun j hj => ?_⟩
  · rw [overlay_update]; exact h.run_eq e he
  · rw [overlay_update]
    rcases h.touched e he j hj with ho | ht
    · exact Or.inl ho
    · rcases List.mem_cons.mp ht with rfl | ht
      · exact Or.inl hk
      · exact Or.inr ht
  · rw [overlay_update] at hj
    exact h.pending e he j (List.mem_cons_of_mem _ hj)
  · rw [overlay_update, h.written e he j]
    by_cases hj : j = k
    · subst hj; simp [StoreProgram.written]
    · simp [StoreProgram.written, hj]
  · by_cases hjk : j = k
    · subst hjk; exact hk
    · exact h.cached j (by simpa [hjk] using hj)

/-- **A cached execution that was refused nothing has done what the program does
alone**, its writes being those in the cache. -/
theorem run_of_done {a : α} (h : Tracks p (.done a) c owned data) {e : K → V}
    (he : ∀ k, owned k → e k = data k) :
    p.run e = .ok (a, overlay c e) ∧ (∀ k ∈ p.touched e, owned k) ∧
      ∀ k, k ∈ p.written e ↔ c k ≠ none := by
  refine ⟨h.run_eq e he, fun k hk => ?_, fun k => ?_⟩
  · exact (h.touched e he k hk).resolve_right (by simp [StoreProgram.touched])
  · rw [h.written e he k]; simp [StoreProgram.written]

theorem run_of_fault {f : F} (h : Tracks p (.fault f) c owned data) : p.run data = .error f :=
  h.run_eq data fun _ _ => rfl

end Tracks
end StoreProgram
