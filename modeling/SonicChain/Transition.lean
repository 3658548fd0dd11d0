/-! # Runs of a transition system

A system is a partial step function: `step s a` is the state after action `a`,
if `a` is enabled in `s`.  A schedule is a list of actions, and `exec` runs it.
What every step preserves, every run preserves.
-/

namespace Transition
variable {S A : Type} (step : S → A → Option S)

/-- The state a schedule leads to, if each of its actions is enabled in turn. -/
def exec : List A → S → Option S
  | [], s => some s
  | a :: as, s =>
    match step s a with
    | some s' => exec as s'
    | none => none

variable {step}

theorem exec_cons {a : A} {as : List A} {s s' : S} (h : exec step (a :: as) s = some s') :
    ∃ s₁, step s a = some s₁ ∧ exec step as s₁ = some s' := by
  rw [exec] at h
  cases hs : step s a with
  | some s₁ => rw [hs] at h; exact ⟨s₁, rfl, h⟩
  | none => rw [hs] at h; cases h

theorem exec_append {as bs : List A} {s : S} :
    exec step (as ++ bs) s = (exec step as s).bind (exec step bs) := by
  induction as generalizing s with
  | nil => rfl
  | cons a as ih =>
    rw [List.cons_append, exec, exec]
    cases step s a with
    | some s₁ => exact ih
    | none => rfl

theorem exec_concat {as : List A} {a : A} {s s₁ s' : S} (h : exec step as s = some s₁)
    (hs : step s₁ a = some s') : exec step (as ++ [a]) s = some s' := by
  rw [exec_append, h, Option.bind_some, exec, hs]
  rfl

/-- **The invariant rule.** -/
theorem exec_invariant {I : S → Prop} (hstep : ∀ s a s', I s → step s a = some s' → I s')
    {as : List A} {s s' : S} (h : exec step as s = some s') (hs : I s) : I s' := by
  induction as generalizing s with
  | nil => cases h; exact hs
  | cons a as ih =>
    obtain ⟨s₁, h₁, h⟩ := exec_cons h
    exact ih h (hstep s a s₁ hs h₁)

/-- The invariant rule for schedules whose actions are all `ok`. -/
theorem exec_invariant_of {I : S → Prop} {ok : A → Prop}
    (hstep : ∀ s a s', ok a → I s → step s a = some s' → I s')
    {as : List A} (hok : ∀ a ∈ as, ok a) {s s' : S} (h : exec step as s = some s') (hs : I s) :
    I s' := by
  induction as generalizing s with
  | nil => cases h; exact hs
  | cons a as ih =>
    obtain ⟨s₁, h₁, h⟩ := exec_cons h
    exact ih (fun b hb => hok b (List.mem_cons_of_mem _ hb)) h
      (hstep s a s₁ (hok a (List.mem_cons_self ..)) hs h₁)

/-- The invariant rule where a step may fail for good instead. -/
theorem exec_invariant_unless {I B : S → Prop} {ok : A → Prop}
    (hstep : ∀ s a s', ok a → I s → step s a = some s' → I s' ∨ B s')
    (hbad : ∀ s a s', ok a → B s → step s a = some s' → B s')
    {as : List A} (hok : ∀ a ∈ as, ok a) {s s' : S} (h : exec step as s = some s') (hs : I s) :
    I s' ∨ B s' := by
  refine exec_invariant_of (I := fun s => I s ∨ B s) (fun s a s' ha hi hs' => ?_) hok h (.inl hs)
  rcases hi with hi | hb
  · exact hstep s a s' ha hi hs'
  · exact .inr (hbad s a s' ha hb hs')

end Transition
