import SonicChain.Transition

/-! # Possible progress in a transition system

`Leads step ok P s`: from `s` some schedule leads to a state with `P`.  The schedule takes
only actions that are `ok` where it takes them.  What every `ok` step preserves goes along
(`Leads.along`); a measure that can be brought down leads to its end (`Leads.of_measure`);
and what can be reached for one part of a system without losing what has been reached for
the others can be reached for all parts (`Leads.each`).
-/

namespace Transition
variable {S A : Type}

/-- Some schedule leads from the state to one with `P`. -/
inductive Leads (step : S → A → Option S) (ok : S → A → Prop) (P : S → Prop) : S → Prop
  | now {s : S} (h : P s) : Leads step ok P s
  | next {s s' : S} {a : A} (ha : ok s a) (hs : step s a = some s') (h : Leads step ok P s') :
    Leads step ok P s

namespace Leads
variable {step : S → A → Option S} {ok ok' : S → A → Prop} {P Q I B : S → Prop} {s : S}

/-- The schedule, as a list. -/
theorem exec {good : A → Prop} (h : Leads step ok P s) (hgood : ∀ s a, ok s a → good a) :
    ∃ as : List A, (∀ a ∈ as, good a) ∧ ∃ s', Transition.exec step as s = some s' ∧ P s' := by
  induction h with
  | now h => exact ⟨[], fun _ ha => absurd ha List.not_mem_nil, _, rfl, h⟩
  | next ha hs _ ih =>
    obtain ⟨as, has, s', hexec, hp⟩ := ih
    refine ⟨_ :: as, List.forall_mem_cons.mpr ⟨hgood _ _ ha, has⟩, s', ?_, hp⟩
    rw [Transition.exec, hs]
    exact hexec

theorem bind (h : Leads step ok P s) (hpq : ∀ s', P s' → Leads step ok Q s') :
    Leads step ok Q s := by
  induction h with
  | now h => exact hpq _ h
  | next ha hs _ ih => exact .next ha hs ih

theorem mono (h : Leads step ok P s) (hpq : ∀ s', P s' → Q s') : Leads step ok Q s :=
  h.bind fun s' hp => .now (hpq s' hp)

/-- More actions do no harm. -/
theorem weaken (h : Leads step ok P s) (hok : ∀ s a, ok s a → ok' s a) : Leads step ok' P s := by
  induction h with
  | now h => exact .now h
  | next ha hs _ ih => exact .next (hok _ _ ha) hs ih

/-- **What every step preserves goes along.** -/
theorem along (h : Leads step ok P s)
    (hstep : ∀ s a s', ok s a → I s → step s a = some s' → I s') (hi : I s) :
    Leads step ok (fun s' => I s' ∧ P s') s := by
  induction h with
  | now h => exact .now ⟨hi, h⟩
  | next ha hs _ ih => exact .next ha hs (ih (hstep _ _ _ ha hi hs))

/-- **A measure that can be brought down leads to its end.** -/
theorem of_measure (measure : S → Nat)
    (h : ∀ s, I s → Leads step ok (fun s' => Q s' ∨ I s' ∧ measure s' < measure s) s) (hi : I s) :
    Leads step ok Q s := by
  induction hn : measure s using Nat.strongRecOn generalizing s with
  | ind n ih =>
    refine (h s hi).bind fun s' hs' => ?_
    rcases hs' with hq | ⟨hi', hlt⟩
    · exact .now hq
    · exact ih (measure s') (hn ▸ hlt) hi' rfl

/-- **Part after part.**  `B` is where the system may end up instead. -/
theorem each {X : Type} {D : X → S → Prop} {xs : List X}
    (h : ∀ x ∈ xs, ∀ s, I s →
      Leads step ok (fun s' => B s' ∨ I s' ∧ D x s' ∧ ∀ y ∈ xs, D y s → D y s') s) (hi : I s) :
    Leads step ok (fun s' => B s' ∨ I s' ∧ ∀ x ∈ xs, D x s') s := by
  -- The parts that have had their turn, with what was there before kept.
  have hpart : ∀ ys : List X, (∀ y ∈ ys, y ∈ xs) → ∀ s, I s → Leads step ok
      (fun s' => B s' ∨ I s' ∧ (∀ y ∈ ys, D y s') ∧ ∀ y ∈ xs, D y s → D y s') s := by
    intro ys
    induction ys with
    | nil =>
      intro _ s hi
      exact .now (.inr ⟨hi, fun _ hy => absurd hy List.not_mem_nil, fun _ _ hd => hd⟩)
    | cons y ys ih =>
      intro hys s hi
      obtain ⟨hy, hys⟩ := List.forall_mem_cons.mp hys
      refine (h y hy s hi).bind fun s₁ h₁ => ?_
      rcases h₁ with hb | ⟨hi₁, hd₁, hkeep₁⟩
      · exact .now (.inl hb)
      · refine (ih hys s₁ hi₁).mono fun s₂ h₂ => h₂.imp_right ?_
        rintro ⟨hi₂, hds, hkeep₂⟩
        exact ⟨hi₂, List.forall_mem_cons.mpr ⟨hkeep₂ y hy hd₁, hds⟩,
          fun z hz hd => hkeep₂ z hz (hkeep₁ z hz hd)⟩
  exact (hpart xs (fun _ hx => hx) s hi).mono fun s' h' =>
    h'.imp_right fun ⟨hi', hds, _⟩ => ⟨hi', hds⟩

end Leads
end Transition
