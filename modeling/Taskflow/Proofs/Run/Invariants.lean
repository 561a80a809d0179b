import Taskflow.Proofs.Run.Ledger

/-!
# Invariants of runs

Properties of plans, of the processes that come of them and of the world go through a whole run if
the small steps of a run keep them: that a call begins, that it is over, and that a functor name
yields a value (`Machine.Invariant`).  How processes grow out of plans, wait and join is the same for
all such properties, so it is gone through here once, first for one instant (`Invariant.starts`,
`Invariant.resumes`) and then for a run (`Invariant.run`).
-/

namespace Taskflow

variable {σ ω : Type}

namespace Machine

/-- Properties `P` of plans, `Q` of processes, `N` of functor names and `I` of worlds that are kept by
the small steps of a run. -/
structure Invariant (m : Machine σ ω) (P : Plan → Prop) (Q : Process → Prop) (N : Site → Prop)
    (I : World σ ω → Prop) : Prop where
  namedPlan : ∀ {site body}, P (.named site body) → N site ∧ P body
  seqPlan : ∀ {outer inner}, P (.seq outer inner) → P outer ∧ P inner
  parPlan : ∀ {left right}, P (.par left right) → P left ∧ P right
  named : ∀ {site body}, Q (.named site body) ↔ N site ∧ Q body
  seq : ∀ {outer inner}, Q (.seq outer inner) ↔ P outer ∧ Q inner
  par : ∀ {flag left right}, Q (.par flag left right) ↔ Q left ∧ Q right
  pair : ∀ {a b}, Q (.done (.ok a)) → Q (.done (.ok b)) → Q (.done (.ok (.pair a b)))
  cancelled : Q (.done (.error .cancelled))
  asks : ∀ {site v w}, P (.task site) → I w → Q (.call (m.called site v w)) ∧ I (m.asked site v w)
  finish : ∀ {c w}, Q (.call c) → I w → Q (m.finish c w).1 ∧ I (m.finish c w).2
  observe : ∀ {site v w}, N site → Q (.done (.ok v)) → I w →
    Q (m.observe site v w).1 ∧ I (m.observe site v w).2
  /-- of the world nothing counts but what the observer remembers and what has been called -/
  untouched : ∀ {w w'}, I w → w'.observer = w.observer → w'.made = w.made → I w'

namespace Invariant

variable {m : Machine σ ω} {P : Plan → Prop} {Q : Process → Prop} {N : Site → Prop}
  {I : World σ ω → Prop} {w w' : World σ ω} {q q' : Process}
  (inv : m.Invariant P Q N I)
include inv

/-! ## One instant -/

theorem drop (p : Process) (world : I w) : I (p.drop w).leave :=
  inv.untouched world (by simp) (by simp)

theorem begin {site : Site} (task : P (.task site)) (v : Val) (world : I w) :
    Q (m.begin site v w).1 ∧ I (m.begin site v w).2 := by
  obtain ⟨call, asked⟩ := inv.asks (v := v) task world
  unfold Machine.begin
  split
  · exact ⟨inv.cancelled, world⟩
  · dsimp only
    split
    · exact inv.finish call asked
    · exact ⟨call, asked⟩

theorem leaves {site : Site} (h : m.Leaves site q w q' w') (name : N site) (process : Q q)
    (world : I w) : Q q' ∧ I w' := by
  cases h with
  | ok => exact inv.observe name process world
  | error => exact ⟨process, world⟩
  | wait => exact ⟨inv.named.2 ⟨name, process⟩, world⟩

theorem joins {left right : Process} (h : m.Joins w left right q' w') (processLeft : Q left)
    (processRight : Q right) (world : I w) : Q q' ∧ I w' := by
  have outside : I w.leave := inv.untouched world rfl rfl
  cases h with
  | ok => exact ⟨inv.pair processLeft processRight, outside⟩
  | left => exact ⟨processLeft, outside⟩
  | right => exact ⟨processRight, outside⟩
  | dropLeft => exact ⟨processRight, inv.drop _ world⟩
  | dropRight => exact ⟨processLeft, inv.drop _ world⟩
  | wait => exact ⟨inv.par.2 ⟨processLeft, processRight⟩, outside⟩

/-- What holds of a plan holds of what it has got to when it has been started. -/
theorem starts {plan : Plan} {v : Val} (h : m.Starts plan v w q w') (holds : P plan)
    (world : I w) : Q q ∧ I w' := by
  induction h with
  | task => exact inv.begin holds _ world
  | named _ leaves ih =>
    obtain ⟨name, body⟩ := inv.namedPlan holds
    obtain ⟨process, world⟩ := ih body world
    exact inv.leaves leaves name process world
  | seqOk _ _ ihInner ihOuter =>
    obtain ⟨outer, inner⟩ := inv.seqPlan holds
    exact ihOuter outer (ihInner inner world).2
  | seqError _ ih => exact ih (inv.seqPlan holds).2 world
  | seqWait _ _ ih =>
    obtain ⟨outer, inner⟩ := inv.seqPlan holds
    obtain ⟨process, world⟩ := ih inner world
    exact ⟨inv.seq.2 ⟨outer, process⟩, world⟩
  | parEnds _ _ ih =>
    obtain ⟨process, inside⟩ := ih (inv.parPlan holds).1 (inv.untouched world rfl rfl)
    exact ⟨process, inv.untouched inside rfl rfl⟩
  | par _ _ _ joins ihLeft ihRight =>
    obtain ⟨left, right⟩ := inv.parPlan holds
    obtain ⟨processLeft, inside⟩ := ihLeft left (inv.untouched world rfl rfl)
    obtain ⟨processRight, inside⟩ := ihRight right inside
    exact inv.joins joins processLeft processRight inside

/-- What holds of a process holds of what it has got to when it has been resumed, if settling a call
keeps it. -/
theorem resumes {settle : Call → World σ ω → Process × World σ ω}
    (settles : ∀ {c w}, Q (.call c) → I w → Q (settle c w).1 ∧ I (settle c w).2)
    (h : m.Resumes settle q w q' w') (process : Q q) (world : I w) : Q q' ∧ I w' := by
  induction h with
  | done => exact ⟨process, world⟩
  | call => exact settles process world
  | named _ leaves ih =>
    obtain ⟨name, body⟩ := inv.named.1 process
    obtain ⟨process, world⟩ := ih body world
    exact inv.leaves leaves name process world
  | seqOk _ starts ih =>
    obtain ⟨outer, inner⟩ := inv.seq.1 process
    exact inv.starts starts outer (ih inner world).2
  | seqError _ ih => exact ih (inv.seq.1 process).2 world
  | seqWait _ _ ih =>
    obtain ⟨outer, inner⟩ := inv.seq.1 process
    obtain ⟨process, world⟩ := ih inner world
    exact ⟨inv.seq.2 ⟨outer, process⟩, world⟩
  | parEnds _ _ ih =>
    obtain ⟨process, inside⟩ := ih (inv.par.1 process).1 (inv.untouched world rfl rfl)
    exact ⟨process, inv.drop _ inside⟩
  | par _ _ _ joins ihLeft ihRight =>
    obtain ⟨left, right⟩ := inv.par.1 process
    obtain ⟨processLeft, inside⟩ := ihLeft left (inv.untouched world rfl rfl)
    obtain ⟨processRight, inside⟩ := ihRight right inside
    exact inv.joins joins processLeft processRight inside

theorem settleStopped {c : Call} (process : Q (.call c)) (world : I w) :
    Q (settleStopped c w).1 ∧ I (settleStopped c w).2 := by
  unfold Machine.settleStopped
  split
  · exact ⟨inv.cancelled, inv.untouched world rfl (World.made_close _ _ _)⟩
  · exact ⟨process, world⟩

theorem settle {c : Call} (process : Q (.call c)) (world : I w) :
    Q (m.settle c w).1 ∧ I (m.settle c w).2 := by
  unfold Machine.settle
  split
  · exact inv.settleStopped process world
  · unfold settleDue
    split
    · exact inv.finish process world
    · exact ⟨process, world⟩

/-! ## Whole runs -/

/-- What holds of a plan and of the world in which a run begins holds when the run ends. -/
theorem run {plan : Plan} (holds : P plan) (input : Val) (s : σ) (o : ω) (clock : Nat)
    (cancelAfter : Option Nat) (world : I (initial s o clock cancelAfter)) :
    Q (.done (m.run plan input s o clock cancelAfter).1) ∧
      I (m.run plan input s o clock cancelAfter).2 := by
  refine m.run_spec (I := fun q w ↦ Q q ∧ I w) ?_ ?_ ?_ ?_
  · exact fun starts ↦ inv.starts starts holds world
  · rintro q w q' w' ⟨process, world⟩ resumes
    exact inv.resumes inv.settleStopped resumes process world
  · rintro q w t q' w' ⟨process, world⟩ - resumes
    exact inv.resumes inv.settle resumes process (inv.untouched world rfl rfl)
  · rintro q w t c ⟨process, world⟩ - - -
    exact ⟨process, inv.untouched world rfl rfl⟩

end Invariant

end Machine

end Taskflow
