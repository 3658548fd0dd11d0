import SonicChain.StoreDiscipline

/-! # Pre- and postconditions of store programs

`Triple P p Q G`: run on a store where `P` holds, `p` returns an `a` in a store
where `Q a` holds, or fails, or ends in a fault that `G` allows.  Nothing is
said of the store after a failure: a program that checks before it writes has
not changed it (`ChecksFirst.unchanged`).  One rule for each way of composing
programs.
-/

namespace StoreProgram
variable {K V E F X α β : Type} [DecidableEq K]

theorem run_bindT (p : ExceptT X (StoreProgram K V E F) α)
    (g : α → ExceptT X (StoreProgram K V E F) β) (d : K → V) :
    (p >>= g).run.run d =
      match p.run.run d with
      | .ok (.ok a, d') => (g a).run.run d'
      | .ok (.error x, d') => .ok (.error x, d')
      | .error f => .error f := by
  change (p.run >>= ExceptT.bindCont g).run d = _
  rw [run_bind_eq]
  cases p.run.run d with
  | error f => rfl
  | ok r =>
    obtain ⟨a, d'⟩ := r
    cases a <;> rfl

/-- A composed program that returns has run both parts. -/
theorem of_bindT_ok {p : ExceptT X (StoreProgram K V E F) α}
    {g : α → ExceptT X (StoreProgram K V E F) β} {d d' : K → V} {b : β}
    (h : (p >>= g).run.run d = .ok (.ok b, d')) :
    ∃ a e, p.run.run d = .ok (.ok a, e) ∧ (g a).run.run e = .ok (.ok b, d') := by
  rw [run_bindT] at h
  match hp : p.run.run d with
  | .ok (.ok a, e) => rw [hp] at h; exact ⟨a, e, rfl, h⟩
  | .ok (.error x, e) => rw [hp] at h; cases h
  | .error f => rw [hp] at h; cases h

/-- A composed program that fails does so in one of its parts. -/
theorem of_bindT_error {p : ExceptT X (StoreProgram K V E F) α}
    {g : α → ExceptT X (StoreProgram K V E F) β} {d d' : K → V} {x : X}
    (h : (p >>= g).run.run d = .ok (.error x, d')) :
    p.run.run d = .ok (.error x, d') ∨
      ∃ a e, p.run.run d = .ok (.ok a, e) ∧ (g a).run.run e = .ok (.error x, d') := by
  rw [run_bindT] at h
  match hp : p.run.run d with
  | .ok (.ok a, e) => rw [hp] at h; exact .inr ⟨a, e, rfl, h⟩
  | .ok (.error x', e) => rw [hp] at h; cases h; exact .inl rfl
  | .error f => rw [hp] at h; cases h

/-- A composed program that ends in a fault does so in one of its parts. -/
theorem of_bindT_fault {p : ExceptT X (StoreProgram K V E F) α}
    {g : α → ExceptT X (StoreProgram K V E F) β} {d : K → V} {f : F}
    (h : (p >>= g).run.run d = .error f) :
    p.run.run d = .error f ∨
      ∃ a e, p.run.run d = .ok (.ok a, e) ∧ (g a).run.run e = .error f := by
  rw [run_bindT] at h
  match hp : p.run.run d with
  | .ok (.ok a, e) => rw [hp] at h; exact .inr ⟨a, e, rfl, h⟩
  | .ok (.error x, e) => rw [hp] at h; cases h
  | .error f' => rw [hp] at h; cases h; exact .inl rfl

def Triple (P : (K → V) → Prop) (p : ExceptT X (StoreProgram K V E F) α)
    (Q : α → (K → V) → Prop) (G : F → Prop) : Prop :=
  ∀ d, P d →
    match p.run.run d with
    | .ok (.ok a, d') => Q a d'
    | .ok (.error _, _) => True
    | .error f => G f

namespace Triple
variable {P P' : (K → V) → Prop} {p : ExceptT X (StoreProgram K V E F) α}
  {g : α → ExceptT X (StoreProgram K V E F) β} {Q : α → (K → V) → Prop}
  {R : β → (K → V) → Prop} {G : F → Prop}

theorem bind (hp : Triple P p Q G) (hg : ∀ a, Triple (Q a) (g a) R G) : Triple P (p >>= g) R G := by
  intro d hd
  have h := hp d hd
  rw [run_bindT]
  match p.run.run d, h with
  | .ok (.ok a, d'), h => exact hg a d' h
  | .ok (.error x, d'), _ => trivial
  | .error f, h => exact h

theorem pre (h : Triple P p Q G) (hP : ∀ d, P' d → P d) : Triple P' p Q G :=
  fun d hd => h d (hP d hd)

theorem post {Q' : α → (K → V) → Prop} (h : Triple P p Q G) (hQ : ∀ a d, Q a d → Q' a d) :
    Triple P p Q' G := by
  intro d hd
  have := h d hd
  match p.run.run d, this with
  | .ok (.ok a, d'), h => exact hQ a d' h
  | .ok (.error x, d'), _ => trivial
  | .error f, h => exact h

theorem done {a : α} (h : ∀ d, P d → Q a d) :
    Triple P (pure a : ExceptT X (StoreProgram K V E F) α) Q G := h

theorem fail (x : X) : Triple P (throw x : ExceptT X (StoreProgram K V E F) α) Q G :=
  fun _ _ => trivial

/-- How a run from `P` may end. -/
theorem of_run (h : Triple P p Q G) {d d' : K → V} {a : α} (hd : P d)
    (hrun : p.run.run d = .ok (.ok a, d')) : Q a d' := by
  have := h d hd
  rwa [hrun] at this

theorem of_fault (h : Triple P p Q G) {d : K → V} {f : F} (hd : P d)
    (hrun : p.run.run d = .error f) : G f := by
  have := h d hd
  rwa [hrun] at this

end Triple
end StoreProgram
