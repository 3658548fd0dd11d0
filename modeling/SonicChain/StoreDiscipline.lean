import SonicChain.StoreProgram

/-! # Disciplines of store programs

Ways in which code over a store may restrain itself, each as a predicate
on programs with a failure result (`Except X α`, the `ExceptT` form), with the
rules by which a predicate passes to composed code:

* `FailStop`: once an access is refused, the program ends at once with a failure
  that reports the refusal, or in a fault of a given kind;
* `ChecksFirst bad`: a `bad` failure is never returned after a write, so that
  `run` leaves the store alone whenever it ends in one (`ChecksFirst.unchanged`);
* `Within S`: every access, whatever the answers, is to a key of `S`;
* `Yields`: a refused access ends the program in a failure, unless it is to a key
  that has been granted before.
-/

namespace StoreProgram
variable {K V E F X α β : Type}

theorem run_bind_eq [DecidableEq K] (p : StoreProgram K V E F α) (g : α → StoreProgram K V E F β)
    (d : K → V) :
    (p >>= g).run d =
      match p.run d with
      | .ok (a, d') => (g a).run d'
      | .error f => .error f := by
  induction p generalizing d with
  | done a => rfl
  | fault f => rfl
  | read k next ih => exact ih _ d
  | write k v next ih => exact ih _ _

/-! ### Fail-stop programs -/

/-- The program has ended: with a failure that reports the refusal `e`, or in
one of the `faults`. -/
def Refused (reports : E → X → Prop) (faults : F → Prop) (e : E) :
    StoreProgram K V E F (Except X α) → Prop
  | .done (.error x) => reports e x
  | .fault f => faults f
  | _ => False

/-- A refused access ends the program at once, and only a refused access makes
it report a refusal. -/
def FailStop (reports : E → X → Prop) (faults : F → Prop) :
    StoreProgram K V E F (Except X α) → Prop
  | .done (.error x) => ∀ e, ¬ reports e x
  | .done (.ok _) => True
  | .fault _ => True
  | .read _ next =>
    (∀ e, Refused reports faults e (next (.error e))) ∧ ∀ v, FailStop reports faults (next (.ok v))
  | .write _ _ next =>
    (∀ e, Refused reports faults e (next (.error e))) ∧ ∀ u, FailStop reports faults (next (.ok u))

theorem Refused.bind {reports : E → X → Prop} {faults : F → Prop} {e : E}
    {p : StoreProgram K V E F (Except X α)} (h : Refused reports faults e p)
    (g : α → ExceptT X (StoreProgram K V E F) β) :
    Refused reports faults e (ExceptT.bind (ExceptT.mk p) g).run := by
  cases p with
  | done r =>
    cases r with
    | error x => exact h
    | ok a => exact h.elim
  | fault f => exact h
  | read k next => exact h.elim
  | write k v next => exact h.elim

theorem FailStop.bind {reports : E → X → Prop} {faults : F → Prop}
    {p : ExceptT X (StoreProgram K V E F) α} {g : α → ExceptT X (StoreProgram K V E F) β}
    (h : FailStop reports faults p.run) (hg : ∀ a, FailStop reports faults (g a).run) :
    FailStop reports faults (p >>= g).run := by
  change FailStop reports faults (ExceptT.bind (ExceptT.mk p.run) g).run
  generalize p.run = q at h
  induction q with
  | done r =>
    cases r with
    | error x => exact h
    | ok a => exact hg a
  | fault f => trivial
  | read k next ih => exact ⟨fun e => (h.1 e).bind g, fun v => ih _ (h.2 v)⟩
  | write k v next ih => exact ⟨fun e => (h.1 e).bind g, fun u => ih _ (h.2 u)⟩

/-- A run that is refused nothing reports no refusal. -/
theorem FailStop.run_not_reports [DecidableEq K] {reports : E → X → Prop} {faults : F → Prop}
    {p : StoreProgram K V E F (Except X α)} (hp : FailStop reports faults p) {d d' : K → V} {x : X}
    (h : p.run d = .ok (.error x, d')) (e : E) : ¬ reports e x := by
  induction p generalizing d with
  | done r =>
    obtain ⟨rfl, -⟩ := Prod.mk.inj (Except.ok.inj h)
    exact hp e
  | fault f => cases h
  | read k next ih => exact ih _ (hp.2 _) h
  | write k v next ih => exact ih _ (hp.2 _) h

/-! ### The faults of a program -/

/-- Refused nothing, the program ends in `allowed` faults only. -/
def FaultsIn (allowed : F → Prop) : StoreProgram K V E F α → Prop
  | .done _ => True
  | .fault f => allowed f
  | .read _ next => ∀ v, FaultsIn allowed (next (.ok v))
  | .write _ _ next => ∀ u, FaultsIn allowed (next (.ok u))

theorem FaultsIn.bind {allowed : F → Prop} {p : StoreProgram K V E F α}
    {g : α → StoreProgram K V E F β} (h : FaultsIn allowed p) (hg : ∀ a, FaultsIn allowed (g a)) :
    FaultsIn allowed (p >>= g) := by
  induction p with
  | done a => exact hg a
  | fault f => exact h
  | read k next ih => exact fun v => ih _ (h v)
  | write k v next ih => exact fun u => ih _ (h u)

theorem FaultsIn.bindT {allowed : F → Prop} {p : ExceptT X (StoreProgram K V E F) α}
    {g : α → ExceptT X (StoreProgram K V E F) β} (h : FaultsIn allowed p.run)
    (hg : ∀ a, FaultsIn allowed (g a).run) : FaultsIn allowed (p >>= g).run :=
  FaultsIn.bind h fun r => by
    cases r with
    | error x => trivial
    | ok a => exact hg a

theorem FaultsIn.of_run [DecidableEq K] {allowed : F → Prop} {p : StoreProgram K V E F α}
    (h : FaultsIn allowed p) {d : K → V} {f : F} (hrun : p.run d = .error f) : allowed f := by
  induction p generalizing d with
  | done a => cases hrun
  | fault f' =>
    obtain rfl := Except.error.inj hrun
    exact h
  | read k next ih => exact ih _ (h _) hrun
  | write k v next ih => exact ih _ (h _) hrun

/-! ### Programs that check before they write -/

/-- No access of the program is a write. -/
def ReadOnly : StoreProgram K V E F α → Prop
  | .done _ => True
  | .fault _ => True
  | .read _ next => ∀ r, ReadOnly (next r)
  | .write _ _ _ => False

/-- The program ends in no `bad` failure. -/
def Never (bad : X → Prop) : StoreProgram K V E F (Except X α) → Prop
  | .done (.error x) => ¬ bad x
  | .done (.ok _) => True
  | .fault _ => True
  | .read _ next => ∀ r, Never bad (next r)
  | .write _ _ next => ∀ r, Never bad (next r)

/-- The program ends in no `bad` failure once it has written. -/
def ChecksFirst (bad : X → Prop) : StoreProgram K V E F (Except X α) → Prop
  | .done _ => True
  | .fault _ => True
  | .read _ next => ∀ r, ChecksFirst bad (next r)
  | .write _ _ next => ∀ r, Never bad (next r)

theorem Never.bind {bad : X → Prop} {p : ExceptT X (StoreProgram K V E F) α}
    {g : α → ExceptT X (StoreProgram K V E F) β} (h : Never bad p.run)
    (hg : ∀ a, Never bad (g a).run) : Never bad (p >>= g).run := by
  change Never bad (ExceptT.bind (ExceptT.mk p.run) g).run
  generalize p.run = q at h
  induction q with
  | done r =>
    cases r with
    | error x => exact h
    | ok a => exact hg a
  | fault f => trivial
  | read k next ih => exact fun r => ih _ (h r)
  | write k v next ih => exact fun r => ih _ (h r)

theorem ReadOnly.bindT {p : ExceptT X (StoreProgram K V E F) α}
    {g : α → ExceptT X (StoreProgram K V E F) β} (h : ReadOnly p.run)
    (hg : ∀ a, ReadOnly (g a).run) : ReadOnly (p >>= g).run := by
  change ReadOnly (ExceptT.bind (ExceptT.mk p.run) g).run
  generalize p.run = q at h
  induction q with
  | done r =>
    cases r with
    | error x => trivial
    | ok a => exact hg a
  | fault f => trivial
  | read k next ih => exact fun r => ih _ (h r)
  | write k v next ih => exact h.elim

/-- Checks may go on behind a program that only reads. -/
theorem ChecksFirst.bind_readOnly {bad : X → Prop} {p : ExceptT X (StoreProgram K V E F) α}
    {g : α → ExceptT X (StoreProgram K V E F) β} (h : ReadOnly p.run)
    (hg : ∀ a, ChecksFirst bad (g a).run) : ChecksFirst bad (p >>= g).run := by
  change ChecksFirst bad (ExceptT.bind (ExceptT.mk p.run) g).run
  generalize p.run = q at h
  induction q with
  | done r =>
    cases r with
    | error x => trivial
    | ok a => exact hg a
  | fault f => trivial
  | read k next ih => exact fun r => ih _ (h r)
  | write k v next ih => exact h.elim

theorem Never.checksFirst {bad : X → Prop} {p : StoreProgram K V E F (Except X α)}
    (h : Never bad p) : ChecksFirst bad p := by
  induction p with
  | done r => trivial
  | fault f => trivial
  | read k next ih => exact fun r => ih r (h r)
  | write k v next ih => exact h

theorem Never.not_bad [DecidableEq K] {bad : X → Prop} {p : StoreProgram K V E F (Except X α)}
    (hp : Never bad p) {d d' : K → V} {x : X} (h : p.run d = .ok (.error x, d')) : ¬ bad x := by
  induction p generalizing d with
  | done r =>
    obtain ⟨rfl, -⟩ := Prod.mk.inj (Except.ok.inj h)
    exact hp
  | fault f => cases h
  | read k next ih => exact ih _ (hp _) h
  | write k v next ih => exact ih _ (hp _) h

/-- A run that ends in a bad failure has written nothing. -/
theorem ChecksFirst.written_nil [DecidableEq K] {bad : X → Prop}
    {p : StoreProgram K V E F (Except X α)} (hp : ChecksFirst bad p) {d d' : K → V} {x : X}
    (h : p.run d = .ok (.error x, d')) (hx : bad x) : p.written d = [] := by
  induction p generalizing d with
  | done r => rfl
  | fault f => rfl
  | read k next ih => exact ih _ (hp _) h
  | write k v next ih => exact absurd hx ((hp (.ok ())).not_bad h)

/-- **A bad failure leaves the store as it was.** -/
theorem ChecksFirst.unchanged [DecidableEq K] {bad : X → Prop}
    {p : StoreProgram K V E F (Except X α)} (hp : ChecksFirst bad p) {d d' : K → V} {x : X}
    (h : p.run d = .ok (.error x, d')) (hx : bad x) : d' = d :=
  funext fun k => run_unwritten h k (by simp [hp.written_nil h hx])

/-! ### Programs that keep to given keys -/

/-- Every access of the program, whatever the answers so far, is to a key of
`S`. -/
def Within (S : K → Prop) : StoreProgram K V E F α → Prop
  | .done _ => True
  | .fault _ => True
  | .read k next => S k ∧ ∀ r, Within S (next r)
  | .write k _ next => S k ∧ ∀ r, Within S (next r)

theorem Within.mono {S S' : K → Prop} {p : StoreProgram K V E F α} (h : Within S p)
    (hS : ∀ k, S k → S' k) : Within S' p := by
  induction p with
  | done a => trivial
  | fault f => trivial
  | read k next ih => exact ⟨hS k h.1, fun r => ih r (h.2 r)⟩
  | write k v next ih => exact ⟨hS k h.1, fun r => ih r (h.2 r)⟩

theorem Within.bind {S : K → Prop} {p : StoreProgram K V E F α} {g : α → StoreProgram K V E F β}
    (h : Within S p) (hg : ∀ a, Within S (g a)) : Within S (p >>= g) := by
  induction p with
  | done a => exact hg a
  | fault f => trivial
  | read k next ih => exact ⟨h.1, fun r => ih r (h.2 r)⟩
  | write k v next ih => exact ⟨h.1, fun r => ih r (h.2 r)⟩

theorem Within.bindT {S : K → Prop} {p : ExceptT X (StoreProgram K V E F) α}
    {g : α → ExceptT X (StoreProgram K V E F) β} (h : Within S p.run)
    (hg : ∀ a, Within S (g a).run) : Within S (p >>= g).run :=
  Within.bind h fun r => by
    cases r with
    | error x => trivial
    | ok a => exact hg a

theorem Within.touched [DecidableEq K] {S : K → Prop} {p : StoreProgram K V E F α}
    (h : Within S p) (d : K → V) : ∀ k ∈ p.touched d, S k := by
  induction p generalizing d with
  | done a => simp [StoreProgram.touched]
  | fault f => simp [StoreProgram.touched]
  | read k next ih =>
    intro j hj
    rcases List.mem_cons.mp hj with rfl | hj
    · exact h.1
    · exact ih _ (h.2 _) d j hj
  | write k v next ih =>
    intro j hj
    rcases List.mem_cons.mp hj with rfl | hj
    · exact h.1
    · exact ih _ (h.2 _) _ j hj

/-! ### Programs that give way -/

/-- Having been granted the keys of `held`, the program ends in a failure at the
first refusal of another key, and tells so as `reports` says; if it returns, then
with a result and keys as in `post`. -/
def Yields (reports : List K → E → X → Prop) (post : α → List K → Prop) :
    StoreProgram K V E F (Except X α) → List K → Prop
  | .done (.ok a), held => post a held
  | .done (.error _), _ => True
  | .fault _, _ => True
  | .read k next, held =>
    (k ∉ held → ∀ e, ∃ x, next (.error e) = .done (.error x) ∧ reports held e x) ∧
      ∀ v, Yields reports post (next (.ok v)) (k :: held)
  | .write k _ next, held =>
    (k ∉ held → ∀ e, ∃ x, next (.error e) = .done (.error x) ∧ reports held e x) ∧
      ∀ u, Yields reports post (next (.ok u)) (k :: held)

theorem Yields.mono {reports reports' : List K → E → X → Prop} {post : α → List K → Prop}
    (hreports : ∀ held e x, reports held e x → reports' held e x)
    {p : StoreProgram K V E F (Except X α)} {held : List K} (h : Yields reports post p held) :
    Yields reports' post p held := by
  induction p generalizing held with
  | done r =>
    cases r with
    | error x => trivial
    | ok a => exact h
  | fault f => trivial
  | read k next ih =>
    refine ⟨fun hk e => ?_, fun v => ih _ (h.2 v)⟩
    obtain ⟨x, hx, hr⟩ := h.1 hk e
    exact ⟨x, hx, hreports held e x hr⟩
  | write k v next ih =>
    refine ⟨fun hk e => ?_, fun u => ih _ (h.2 u)⟩
    obtain ⟨x, hx, hr⟩ := h.1 hk e
    exact ⟨x, hx, hreports held e x hr⟩

theorem Yields.bind {reports : List K → E → X → Prop} {post : β → List K → Prop}
    {p : ExceptT X (StoreProgram K V E F) α} {g : α → ExceptT X (StoreProgram K V E F) β}
    {held : List K} (h : Yields reports (fun a held => Yields reports post (g a).run held) p.run held) :
    Yields reports post (p >>= g).run held := by
  change Yields reports post (ExceptT.bind (ExceptT.mk p.run) g).run held
  have ended : ∀ {q : StoreProgram K V E F (Except X α)} {x : X}, q = .done (.error x) →
      (ExceptT.bind (ExceptT.mk q) g).run = .done (.error x) := by
    rintro _ _ rfl
    rfl
  generalize p.run = q at h
  induction q generalizing held with
  | done r =>
    cases r with
    | error x => trivial
    | ok a => exact h
  | fault f => trivial
  | read k next ih =>
    refine ⟨fun hk e => ?_, fun v => ih _ (h.2 v)⟩
    obtain ⟨x, hx, hreports⟩ := h.1 hk e
    exact ⟨x, ended hx, hreports⟩
  | write k v next ih =>
    refine ⟨fun hk e => ?_, fun u => ih _ (h.2 u)⟩
    obtain ⟨x, hx, hreports⟩ := h.1 hk e
    exact ⟨x, ended hx, hreports⟩

end StoreProgram
