import SonicChain.AuthorProgress

/-! # Calls can be completed

From every state in the life of a node the threads can go on to where the current call has
returned, or the node has terminated, unless the body of a call panics
(`node_life_progresses`).  No thread has to be woken without a token for that.
-/

namespace SonicChain
open Worker Transition

section
variable [Ed25519]

/-! ## The life of a node -/

section
variable {exec : Executor} {s₀ s : System} {current : List Transaction} {terminates : Bool}

theorem Worker.Ready.keyed {workers toOthers : List ThreadId} {pc : Pc} {inbox : List MessagePayload}
    (h : Ready workers pc toOthers inbox) : pc.Keyed := by
  cases h with
  | draining hpc => rcases hpc with rfl | rfl <;> trivial
  | _ => trivial

theorem System.Ready.attentive (h : s.Ready exec) (hawake : s.Awake exec) : s.Attentive exec :=
  ⟨hawake, fun w hw => (h.workers w hw).keyed, fun w hw v _ => h.fromOthers w hw v⟩

/-- The threads of a node are attentive. -/
theorem Life.attentive (h : Life exec s₀ terminates current s) (hready : s₀.Ready exec)
    (horphans : ∀ tx ∈ s₀.master.orphanPool, tx.tag = .orphan) (hsound : ¬ s.DispatchPanicked exec) :
    s.Attentive exec := by
  have hawake := (h.stage hready horphans hsound).2
  -- A call does not change the workers.
  have hbegin : ∀ {s : System} {c : Call}, s.Attentive exec → (s.begin exec c).Awake exec →
      (s.begin exec c).Attentive exec := by
    intro s c h hawake
    refine ⟨hawake, fun w hw => ?_, fun w hw => ?_⟩
    · rw [System.begin_worker]
      exact h.keyed w hw
    · rw [System.begin_worker]
      exact h.senders w hw
  induction h with
  | spawned => exact hready.attentive hawake
  | @thread _ _ s₁ _ _ h ha hs ih =>
    have hthreads := System.threads_of_step ha hs
    have hsound' : ¬ s₁.DispatchPanicked exec := fun hpanic => hsound (hpanic.step hthreads)
    exact (ih hsound' (h.stage hready horphans hsound').2).step hthreads
  | @call _ s₁ _ _ h hc hs ih =>
    have hsound' : ¬ s₁.DispatchPanicked exec := fun hpanic => hsound (hpanic.call hs)
    obtain ⟨-, -, rfl⟩ := System.of_call hs
    exact hbegin (ih hsound' (h.stage hready horphans hsound').2) hawake
  | @terminate _ s₁ _ h hs ih =>
    have hsound' : ¬ s₁.DispatchPanicked exec := fun hpanic => hsound (hpanic.call hs)
    obtain ⟨-, -, rfl⟩ := System.of_call hs
    exact hbegin (ih hsound' (h.stage hready horphans hsound').2) hawake

theorem Master.Pc.Returned.callable {pc : Master.Pc} {return_to : Master.Return}
    (h : pc.Returned return_to) : System.Callable pc = true := by
  cases return_to <;> cases pc <;> first | rfl | exact h.elim

/-- **A call of `author_block` can return.** -/
theorem AuthorRun.leads {txs : List Transaction} {pool : Pool} (h : AuthorRun exec s₀ txs pool s)
    (hattentive : s.Attentive exec) : Leads (System.step exec) System.Acts
      (fun s' => s'.DispatchPanicked exec ∨
        s'.master.todo = [] ∧ s'.master.pc.Returned .author) s := by
  rcases h.phase with hauthoring | ⟨s₁, hexited, hclosing⟩
  · exact hauthoring.leads hattentive (h.distributes.assigned h.submitted)
  · exact (hclosing.leads hexited.orphans).mono fun _ h => h.imp_left .inr

/-- **A call of `validate_block` can return.** -/
theorem ValidateCall.leads {block : List Transaction} (h : ValidateCall exec s₀ block s)
    (htagged : Tagged exec block) (hsound : ¬ s.DispatchPanicked exec)
    (hattentive : s.Attentive exec) : Leads (System.step exec) System.Acts
      (fun s' => s'.DispatchPanicked exec ∨
        s'.master.todo = [] ∧ s'.master.pc.Returned .validate) s := by
  have hphase := h.phase_of htagged (K := fun _ => True) trivial fun _ _ _ _ _ => trivial
  rcases hphase with (⟨hvalidation, -⟩ | ⟨s₁, ⟨hreported, -⟩, hclosing⟩) | hpanic
  · exact hvalidation.leads hattentive h.tagged_orphans
  · have horphans := h.tagged_orphans
    rw [← hreported.orphanPool] at horphans
    exact (hclosing.leads horphans).mono fun _ h => h.imp_left .inr
  · exact absurd (.inr hpanic) hsound

/-- Whatever the stage is, it can be completed. -/
theorem Stage.leads (h : Stage exec terminates current s) (hattentive : s.Attentive exec) :
    Leads (System.step exec) System.Acts (fun s' => s'.DispatchPanicked exec ∨
      (terminates = false → s'.master.todo = [] ∧ System.Callable s'.master.pc = true) ∧
        (terminates = true → ∀ w ∈ exec.workers, (s'.worker w).pc = .terminated)) s := by
  have hreturns : ∀ {s : System} {return_to : Master.Return},
      Leads (System.step exec) System.Acts (fun s' => s'.DispatchPanicked exec ∨
        s'.master.todo = [] ∧ s'.master.pc.Returned return_to) s →
      Leads (System.step exec) System.Acts (fun s' => s'.DispatchPanicked exec ∨
        (false = false → s'.master.todo = [] ∧ System.Callable s'.master.pc = true) ∧
          (false = true → ∀ w ∈ exec.workers, (s'.worker w).pc = .terminated)) s := by
    intro s return_to h
    refine h.mono fun s' h' => h'.imp_right fun ⟨htodo, hreturned⟩ => ?_
    exact ⟨fun _ => ⟨htodo, hreturned.callable⟩, fun hleaves => absurd hleaves (by decide)⟩
  cases h with
  | resting hready =>
    exact .now (.inr ⟨fun _ => ⟨hready.todo, hready.callable⟩, fun hleaves => absurd hleaves (by decide)⟩)
  | authoring h => exact hreturns (h.leads hattentive)
  | validating h htagged hsound => exact hreturns (h.leads htagged hsound hattentive)
  | leaving h =>
    exact (h.leads hattentive).mono fun s' h' =>
      h'.imp_right fun hterminated => ⟨fun hstays => absurd hstays (by decide), fun _ => hterminated⟩

/-- **A node never gets stuck.**  From every state of its life some schedule of the
threads, in which `park` waits for its token, leads to where the node is ready for the next
call, or all workers have terminated if it has been told to, unless the body of a call
panics. -/
theorem node_life_progresses (h : Life exec s₀ terminates current s) (hready : s₀.Ready exec)
    (horphans : ∀ tx ∈ s₀.master.orphanPool, tx.tag = .orphan) :
    Leads (System.step exec) System.Acts (fun s' => s'.DispatchPanicked exec ∨
      (terminates = false → s'.Ready exec) ∧
        (terminates = true → ∀ w ∈ exec.workers, (s'.worker w).pc = .terminated)) s := by
  by_cases hsound : s.DispatchPanicked exec
  · exact .now (.inl hsound)
  · obtain ⟨hstage, -⟩ := h.stage hready horphans hsound
    refine ((hstage.leads (h.attentive hready horphans hsound)).along
      (I := Life exec s₀ terminates current) (fun s₁ a s₂ ha hlife hs => hlife.thread ha.ofThread hs)
      h).mono ?_
    rintro s' ⟨hlife, hpanic | ⟨hcallable, hterminated⟩⟩
    · exact .inl hpanic
    · by_cases hsound' : s'.DispatchPanicked exec
      · exact .inl hsound'
      · refine .inr ⟨fun hstays => ?_, hterminated⟩
        subst hstays
        exact ((hlife.stage hready horphans hsound').1.ready (hcallable rfl).2).1

end
end

section
open Testing

namespace Testing

/-- Worker 1 is inside the dispatch of its transaction. -/
def midway : System :=
  (Transition.exec (System.step twoWorkers)
    (List.replicate 11 Action.master ++ List.replicate 5 (Action.worker 1))
    (spawned.begin twoWorkers (.authorBlock backAndForth))).get (by decide +kernel)

theorem midway_life : Life twoWorkers spawned false backAndForth midway := by
  obtain ⟨hready, htxPool, horphanPool, hsubmitted, hdistributes, -, -⟩ := settled_run
  have hc : (Call.authorBlock backAndForth).Allowed twoWorkers spawned :=
    .authorBlock htxPool horphanPool hsubmitted hdistributes
  exact (Life.spawned.call hc (System.step_call rfl rfl)).threads (by decide) (Option.some_get _).symm

end Testing

theorem node_life_progresses_midway : (midway.worker 1).pc.job.isSome = true ∧
    Leads (System.step twoWorkers) System.Acts (fun s' => s'.DispatchPanicked twoWorkers ∨
      (false = false → s'.Ready twoWorkers) ∧
        (false = true → ∀ w ∈ twoWorkers.workers, (s'.worker w).pc = .terminated)) midway :=
  ⟨by decide +kernel,
    node_life_progresses midway_life spawned_ready (System.onlyOrphans rfl)⟩

end
end SonicChain
