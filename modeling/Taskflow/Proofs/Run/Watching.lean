import Taskflow.Proofs.Run.Ledger
import Taskflow.Proofs.Run.World
import Taskflow.Run.Guard

/-!
# Watching changes nothing

An observer *follows* another one if it does the same as long as the memory of the other is clean.
A run that leaves a clean memory behind is then step by step the run that the follower watches
(`run_watched`).  This is used twice: an observer that accepts every value is followed by the one
that sees nothing, and two guards for the same types follow each other as long as neither finds a
violation.

A strict guard refuses every value that it takes note of, and nothing that happens later undoes a
failure in a process (`Resumes.hasFailed`).  So if a strict run yields a value then its guard has
found nothing (`observer_of_run_eq_ok`).
-/

namespace Taskflow

variable {σ ω ω' : Type}

namespace Observer

/-- Whether `b` does as `a` does as long as the memory of `a` is clean, and remembers what `f` makes
of what `a` remembers. -/
structure Follows (b : Observer ω') (a : Observer ω) (f : ω → ω') (Clean : ω → Prop) : Prop where
  /-- a memory that is clean has always been so -/
  clean : ∀ {site v o}, Clean (a.observe site v o).2 → Clean o
  observe : ∀ {site v o}, Clean (a.observe site v o).2 →
    b.observe site v (f o) = ((a.observe site v o).1, f (a.observe site v o).2)

/-- Where an observer accepts every value there might as well be none. -/
theorem follows_blind {a : Observer ω} (accepts : ∀ site v o, (a.observe site v o).1 = none) :
    Observer.blind.Follows a (fun _ ↦ ()) fun _ ↦ True where
  clean _ := trivial
  observe _ := by rw [accepts, blind]

/-- Whether an observer refuses every value that it takes note of. -/
def Strict (a : Observer ω) : Prop :=
  ∀ site v o, (a.observe site v o).1 = none → (a.observe site v o).2 = o

end Observer

namespace Guard

/-- If the list of a guard stays empty then the value contradicts nothing. -/
theorem nothing_found {g : Guard} {site : Site} {v : Val} {found : List Violation}
    (nothing : (g.observer.observe site v found).2 = []) :
    found = [] ∧ g.violation? site v = none := by
  dsimp only [observer] at nothing
  split at nothing
  next none => exact ⟨nothing, none⟩
  next => simp at nothing

/-- Guards for the same types do the same as long as nothing is found, strict or not. -/
theorem follows (types : SortedMap NodeId Ty) (strict strict' : Bool) :
    (Guard.mk types strict').observer.Follows (Guard.mk types strict).observer id (· = []) where
  clean nothing := (nothing_found nothing).1
  observe {site v found} nothing := by
    obtain ⟨-, none⟩ := nothing_found nothing
    have none' : Guard.violation? ⟨types, strict'⟩ site v = Option.none := none
    simp only [observer, none, none', id]

/-- A guard that is not strict accepts every value. -/
theorem accepts (types : SortedMap NodeId Ty) (site : Site) (v : Val) (found : List Violation) :
    ((Guard.mk types false).observer.observe site v found).1 = none := by
  dsimp only [observer]
  split <;> rfl

theorem strict_observer (types : SortedMap NodeId Ty) : (Guard.mk types true).observer.Strict := by
  intro site v found accepted
  dsimp only [observer] at accepted ⊢
  split at accepted
  next => rfl
  next => cases accepted

end Guard

/-- The same world with another memory of the observer. -/
def World.mapObserver (f : ω → ω') (w : World σ ω) : World σ ω' :=
  { w with observer := f w.observer }

@[simp] theorem World.cancelBy_mapObserver (f : ω → ω') (w : World σ ω) (r : Reply) :
    (w.mapObserver f).cancelBy r = (w.cancelBy r).mapObserver f := by
  obtain ⟨_, _, _, _, _, _ | _⟩ := w <;> obtain ⟨_, _ | _, _ | _, _, _⟩ := r <;> rfl

@[simp] theorem Process.drop_mapObserver (f : ω → ω') (p : Process) (w : World σ ω) :
    p.drop (w.mapObserver f) = (p.drop w).mapObserver f := by
  induction p generalizing w with
  | done | call => rfl
  | named _ _ ih | seq _ _ ih => exact ih w
  | par _ _ _ ihLeft ihRight => rw [drop, drop, ihLeft, ihRight]

namespace Machine

/-- The same machine, watched by another observer. -/
def watchedBy (m : Machine σ ω) (b : Observer ω') : Machine σ ω' := ⟨m.executor, b, m.policy⟩

/-! ## Two runs in lockstep -/

/-- Whether the follower gets to `r'` where the machine that it follows gets from `w` to `r`, or the
memory is no longer clean there. -/
def Lockstep {α : Type} (f : ω → ω') (Clean : ω → Prop) (w : World σ ω) (r : α × World σ ω)
    (r' : α × World σ ω') : Prop :=
  Clean r.2.observer → Clean w.observer ∧ r' = (r.1, r.2.mapObserver f)

namespace Lockstep

variable {α : Type} {f : ω → ω'} {Clean : ω → Prop} {w w' : World σ ω} {r s : α × World σ ω}
  {r' s' : α × World σ ω'}

/-- Where the observer is not asked the machines do the same. -/
theorem unasked {p : α} (same : w'.observer = w.observer) :
    Lockstep f Clean w (p, w') (p, w'.mapObserver f) :=
  fun clean ↦ ⟨same ▸ clean, rfl⟩

theorem ite {c : Prop} [Decidable c] (pos : Lockstep f Clean w r r')
    (neg : Lockstep f Clean w s s') :
    Lockstep f Clean w (if c then r else s) (if c then r' else s') := by
  split
  · exact pos
  · exact neg

end Lockstep

section Follows

variable {m : Machine σ ω} {b : Observer ω'} {f : ω → ω'} {Clean : ω → Prop}
  (follows : b.Follows m.observer f Clean)

include follows

theorem observe_watched (site : Site) (v : Val) (w : World σ ω) :
    Lockstep f Clean w (m.observe site v w)
      ((m.watchedBy b).observe site v (w.mapObserver f)) := by
  intro clean
  have remembered : (m.observe site v w).2.observer =
      (m.observer.observe site v w.observer).2 := by
    unfold observe
    split <;> simp_all
  rw [remembered] at clean
  refine ⟨follows.clean clean, ?_⟩
  have answer : (m.watchedBy b).observer.observe site v (w.mapObserver f).observer = _ :=
    follows.observe clean
  unfold observe
  rw [answer]
  rcases m.observer.observe site v w.observer with ⟨_ | e, o⟩ <;> rfl

theorem finish_watched (c : Call) (w : World σ ω) :
    Lockstep f Clean w (m.finish c w) ((m.watchedBy b).finish c (w.mapObserver f)) := by
  unfold finish
  rw [World.cancelBy_mapObserver]
  cases c.reply.result with
  | ok v =>
    intro clean
    obtain ⟨clean, same⟩ := observe_watched follows c.site v _ clean
    exact ⟨by simpa using clean, same⟩
  | error e => exact .unasked (by simp)

theorem begin_watched (site : Site) (v : Val) (w : World σ ω) :
    Lockstep f Clean w (m.begin site v w) ((m.watchedBy b).begin site v (w.mapObserver f)) := by
  have ended : Lockstep f Clean w (m.finish (m.called site v w) (m.asked site v w))
      ((m.watchedBy b).finish (m.called site v w) ((m.asked site v w).mapObserver f)) :=
    finish_watched follows _ _
  exact .ite (.unasked rfl) (.ite ended (.unasked rfl))

theorem Leaves.watched {site : Site} {p q : Process} {w w' : World σ ω}
    (h : m.Leaves site p w q w') (clean : Clean w'.observer) :
    Clean w.observer ∧ (m.watchedBy b).Leaves site p (w.mapObserver f) q (w'.mapObserver f) := by
  cases h with
  | @ok v =>
    obtain ⟨clean, same⟩ := observe_watched follows site v w clean
    have leaves : (m.watchedBy b).Leaves site _ _ _ _ := .ok (v := v) (w := w.mapObserver f)
    rw [same] at leaves
    exact ⟨clean, leaves⟩
  | error => exact ⟨clean, .error⟩
  | wait pending => exact ⟨clean, .wait pending⟩

omit follows in
theorem Joins.watchedBy {left right q : Process} {w w' : World σ ω}
    (h : m.Joins w left right q w') (f : ω → ω') : w'.observer = w.observer ∧
      (m.watchedBy b).Joins (w.mapObserver f) left right q (w'.mapObserver f) := by
  cases h with
  | ok => exact ⟨rfl, .ok⟩
  | left => exact ⟨rfl, .left⟩
  | right => exact ⟨rfl, .right⟩
  | @dropLeft left e pending policy =>
    have joins : (m.watchedBy b).Joins (w.mapObserver f) left (.done (.error e)) _ _ :=
      .dropLeft pending policy
    rw [Process.drop_mapObserver] at joins
    exact ⟨by simp, joins⟩
  | @dropRight e right pending policy =>
    have joins : (m.watchedBy b).Joins (w.mapObserver f) (.done (.error e)) right _ _ :=
      .dropRight pending policy
    rw [Process.drop_mapObserver] at joins
    exact ⟨by simp, joins⟩
  | wait pending notLeft notRight => exact ⟨rfl, .wait pending notLeft notRight⟩

/-- A plan that is started leads both machines to the same place. -/
theorem Starts.watched {plan : Plan} {v : Val} {w w' : World σ ω} {p : Process}
    (h : m.Starts plan v w p w') (clean : Clean w'.observer) :
    Clean w.observer ∧ (m.watchedBy b).Starts plan v (w.mapObserver f) p (w'.mapObserver f) := by
  induction h with
  | @task site v w =>
    obtain ⟨clean, same⟩ := begin_watched follows site v w clean
    have starts : (m.watchedBy b).Starts (.task site) v (w.mapObserver f) _ _ := .task
    rw [same] at starts
    exact ⟨clean, starts⟩
  | named _ leaves ih =>
    obtain ⟨clean, leaves⟩ := leaves.watched follows clean
    obtain ⟨clean, body⟩ := ih clean
    exact ⟨clean, .named body leaves⟩
  | seqOk _ _ ihInner ihOuter =>
    obtain ⟨clean, outer⟩ := ihOuter clean
    obtain ⟨clean, inner⟩ := ihInner clean
    exact ⟨clean, .seqOk inner outer⟩
  | seqError _ ih => exact ⟨(ih clean).1, .seqError (ih clean).2⟩
  | seqWait _ pending ih => exact ⟨(ih clean).1, .seqWait (ih clean).2 pending⟩
  | @parEnds left right v w l w₁ _ ends ih =>
    obtain ⟨clean, starts⟩ := ih clean
    exact ⟨clean, .parEnds (m := m.watchedBy b) (w := w.mapObserver f) starts ends⟩
  | par _ notLeft _ joins ihLeft ihRight =>
    obtain ⟨same, joins⟩ := joins.watchedBy f
    rw [same] at clean
    obtain ⟨clean, right⟩ := ihRight clean
    obtain ⟨clean, left⟩ := ihLeft clean
    exact ⟨clean, .par left notLeft right joins⟩

/-- So does a process whose calls are settled in the same way. -/
theorem Resumes.watched {settle : Call → World σ ω → Process × World σ ω}
    {settle' : Call → World σ ω' → Process × World σ ω'}
    (settles : ∀ c w, Lockstep f Clean w (settle c w) (settle' c (w.mapObserver f)))
    {p p' : Process} {w w' : World σ ω} (h : m.Resumes settle p w p' w')
    (clean : Clean w'.observer) : Clean w.observer ∧
      (m.watchedBy b).Resumes settle' p (w.mapObserver f) p' (w'.mapObserver f) := by
  induction h with
  | done => exact ⟨clean, .done⟩
  | @call c w =>
    obtain ⟨clean, same⟩ := settles _ _ clean
    have resumes : (m.watchedBy b).Resumes settle' (.call c) (w.mapObserver f) _ _ := .call
    rw [same] at resumes
    exact ⟨clean, resumes⟩
  | named _ leaves ih =>
    obtain ⟨clean, leaves⟩ := leaves.watched follows clean
    obtain ⟨clean, body⟩ := ih clean
    exact ⟨clean, .named body leaves⟩
  | seqOk _ starts ih =>
    obtain ⟨clean, outer⟩ := starts.watched follows clean
    obtain ⟨clean, inner⟩ := ih clean
    exact ⟨clean, .seqOk inner outer⟩
  | seqError _ ih => exact ⟨(ih clean).1, .seqError (ih clean).2⟩
  | seqWait _ pending ih => exact ⟨(ih clean).1, .seqWait (ih clean).2 pending⟩
  | @parEnds flag left right w l w₁ _ ends ih =>
    obtain ⟨clean, resumed⟩ := ih (by simpa using clean)
    have resumes : (m.watchedBy b).Resumes settle' (.par flag left right) (w.mapObserver f) l
        (right.drop (w₁.mapObserver f)).leave := .parEnds resumed ends
    rw [Process.drop_mapObserver] at resumes
    exact ⟨clean, resumes⟩
  | par _ notLeft _ joins ihLeft ihRight =>
    obtain ⟨same, joins⟩ := joins.watchedBy f
    rw [same] at clean
    obtain ⟨clean, right⟩ := ihRight clean
    obtain ⟨clean, left⟩ := ihLeft clean
    exact ⟨clean, .par left notLeft right joins⟩

omit follows in
theorem settleStopped_watched (c : Call) (w : World σ ω) :
    Lockstep f Clean w (settleStopped c w) (settleStopped c (w.mapObserver f)) :=
  .ite (.unasked rfl) (.unasked rfl)

theorem settle_watched (c : Call) (w : World σ ω) :
    Lockstep f Clean w (m.settle c w) ((m.watchedBy b).settle c (w.mapObserver f)) := by
  have due : Lockstep f Clean w (m.settleDue c w)
      ((m.watchedBy b).settleDue c (w.mapObserver f)) :=
    .ite (finish_watched follows c w) (.unasked rfl)
  exact .ite (settleStopped_watched c w) due

theorem sweep_watched (p : Process) (w : World σ ω) :
    Lockstep f Clean w (m.sweep p w) ((m.watchedBy b).sweep p (w.mapObserver f)) := by
  intro clean
  obtain ⟨clean, resumes⟩ :=
    (m.resumes settleStopped p w).watched follows settleStopped_watched clean
  exact ⟨clean, resumes.eq⟩

theorem tick_watched (p : Process) (w : World σ ω) :
    Lockstep f Clean w (m.tick p w) ((m.watchedBy b).tick p (w.mapObserver f)) := by
  intro clean
  obtain ⟨clean, swept⟩ := sweep_watched follows _ _ clean
  obtain ⟨clean, resumes⟩ :=
    (m.resumes m.settle p w).watched follows (settle_watched follows) clean
  rw [tick, resumes.eq]
  exact ⟨clean, swept⟩

/-- From instant to instant both machines go on together. -/
theorem proceed_watched (cancelAt : Option Nat) (p : Process) (w : World σ ω) :
    Lockstep f Clean w (m.proceed cancelAt p w)
      ((m.watchedBy b).proceed cancelAt p (w.mapObserver f)) := by
  fun_induction proceed m cancelAt p w with
  | case1 cancelAt p w quiet => exact fun clean ↦ ⟨clean, proceed_of_quiet _ _ _ quiet⟩
  | case2 p w t wake _ r ih =>
    intro clean
    have before : ∀ c, none = some c → t < c := by
      rintro c ⟨⟩
    obtain ⟨clean, rest⟩ := ih clean
    obtain ⟨clean, ticked⟩ := tick_watched follows _ _ clean
    refine ⟨clean, ?_⟩
    rw [proceed_of_wake _ _ wake before, ← rest]
    exact congrArg (fun r ↦ proceed _ none r.1 r.2) ticked
  | case3 p w t wake _ c due _ r ih =>
    intro clean
    obtain ⟨clean, rest⟩ := ih clean
    obtain ⟨clean, swept⟩ := sweep_watched follows _ _ clean
    refine ⟨clean, ?_⟩
    rw [proceed_of_cancel _ _ wake due, ← rest]
    exact congrArg (fun r ↦ proceed _ none r.1 r.2) swept
  | case4 p w t wake _ c late r ih =>
    intro clean
    have before : ∀ c', some c = some c' → t < c' := by
      rintro c' ⟨⟩
      exact Nat.not_le.1 late
    obtain ⟨clean, rest⟩ := ih clean
    obtain ⟨clean, ticked⟩ := tick_watched follows _ _ clean
    refine ⟨clean, ?_⟩
    rw [proceed_of_wake _ _ wake before, ← rest]
    exact congrArg (fun r ↦ proceed _ (some c) r.1 r.2) ticked

/-- A run that leaves a clean memory behind is the run that a follower watches. -/
theorem run_watched {plan : Plan} {input : Val} {s : σ} {o : ω} {clock : Nat}
    {cancelAfter : Option Nat}
    (clean : Clean (m.run plan input s o clock cancelAfter).2.observer) :
    (m.watchedBy b).run plan input s (f o) clock cancelAfter =
      ((m.run plan input s o clock cancelAfter).1,
        (m.run plan input s o clock cancelAfter).2.mapObserver f) := by
  obtain ⟨clean, rest⟩ := proceed_watched follows _ _ _ clean
  obtain ⟨clean, swept⟩ := sweep_watched follows _ _ clean
  obtain ⟨-, starts⟩ := (m.starts _ _ _).watched follows clean
  have started : (m.watchedBy b).start plan input (initial s (f o) clock cancelAfter) = _ :=
    starts.eq
  unfold run
  rw [initial] at started
  dsimp only
  rw [started, swept]
  exact rest

end Follows

end Machine

/-! ## What is refused is not forgiven -/

/-- Whether something in a process has failed, so that the process will not end in a value. -/
def Process.HasFailed : Process → Prop
  | .done (.ok _) => False
  | .done (.error _) => True
  | .call _ => False
  | .named _ body => body.HasFailed
  | .seq _ inner => inner.HasFailed
  | .par _ left right => left.HasFailed ∨ right.HasFailed

namespace Machine

variable {m : Machine σ ω}

/-- Only a failure ends a product early. -/
theorem hasFailed_of_ends {p : Process} (ends : m.ends p = true) : p.HasFailed := by
  obtain ⟨e, rfl, -⟩ := m.ends_iff.1 ends
  trivial

theorem Leaves.hasFailed {site : Site} {p q : Process} {w w' : World σ ω}
    (h : m.Leaves site p w q w') (failed : p.HasFailed) : q.HasFailed := by
  cases h with
  | ok => exact failed.elim
  | error => trivial
  | wait => exact failed

theorem Joins.hasFailed {left right q : Process} {w w' : World σ ω} (h : m.Joins w left right q w')
    (failed : left.HasFailed ∨ right.HasFailed) : q.HasFailed := by
  cases h with
  | ok => exact failed.elim id id
  | left | right | dropLeft | dropRight => trivial
  | wait => exact failed

/-- Nothing that happens to a process undoes a failure in it. -/
theorem Resumes.hasFailed {settle : Call → World σ ω → Process × World σ ω} {p p' : Process}
    {w w' : World σ ω} (h : m.Resumes settle p w p' w') (failed : p.HasFailed) : p'.HasFailed := by
  induction h with
  | done => exact failed
  | call => exact failed.elim
  | named _ leaves ih => exact leaves.hasFailed (ih failed)
  | seqOk _ _ ih => exact (ih failed).elim
  | seqError => trivial
  | seqWait _ _ ih => exact ih failed
  | parEnds _ ends => exact hasFailed_of_ends ends
  | par _ _ _ joins ihLeft ihRight => exact joins.hasFailed (failed.imp ihLeft ihRight)

section Strict

variable (strict : m.observer.Strict)

include strict

/-- What a strict observer takes note of fails. -/
theorem observe_noted (site : Site) (v : Val) (w : World σ ω) :
    (m.observe site v w).2.observer = w.observer ∨ (m.observe site v w).1.HasFailed := by
  unfold observe
  split
  next o accepted =>
    have same := strict site v w.observer (by rw [accepted])
    rw [accepted] at same
    exact .inl same
  next => exact .inr trivial

theorem finish_noted (c : Call) (w : World σ ω) :
    (m.finish c w).2.observer = w.observer ∨ (m.finish c w).1.HasFailed := by
  unfold finish
  dsimp only
  split
  · simpa using observe_noted strict c.site _ ((w.cancelBy c.reply).close c.ticket c.outcome)
  · exact .inr trivial

theorem begin_noted (site : Site) (v : Val) (w : World σ ω) :
    (m.begin site v w).2.observer = w.observer ∨ (m.begin site v w).1.HasFailed := by
  unfold begin
  split
  · exact .inl rfl
  · dsimp only
    split
    · exact finish_noted strict _ _
    · exact .inl rfl

theorem Leaves.noted {site : Site} {p q : Process} {w w' : World σ ω}
    (h : m.Leaves site p w q w') : w'.observer = w.observer ∨ q.HasFailed := by
  cases h with
  | ok => exact observe_noted strict _ _ _
  | error | wait => exact .inl rfl

omit strict in
/-- What is taken note of in one branch fails the product. -/
theorem Joins.noted {left right q : Process} {w w' : World σ ω} (h : m.Joins w left right q w')
    {o o' : ω} (notedLeft : o' = o ∨ left.HasFailed)
    (notedRight : w.observer = o' ∨ right.HasFailed) : w'.observer = o ∨ q.HasFailed := by
  have same : w'.observer = w.observer := by
    cases h <;> simp
  rcases notedLeft with rfl | failed
  · rcases notedRight with rfl | failed
    · exact .inl same
    · exact .inr (h.hasFailed (.inr failed))
  · exact .inr (h.hasFailed (.inl failed))

theorem Starts.noted {plan : Plan} {v : Val} {w w' : World σ ω} {p : Process}
    (h : m.Starts plan v w p w') : w'.observer = w.observer ∨ p.HasFailed := by
  induction h with
  | task => exact begin_noted strict _ _ _
  | named _ leaves ih =>
    rcases ih with same | failed
    · exact same ▸ leaves.noted strict
    · exact .inr (leaves.hasFailed failed)
  | seqOk _ _ ihInner ihOuter =>
    rcases ihInner with same | failed
    · exact same ▸ ihOuter
    · exact failed.elim
  | seqError => exact .inr trivial
  | seqWait _ _ ih => exact ih
  | parEnds _ ends => exact .inr (hasFailed_of_ends ends)
  | par _ _ _ joins ihLeft ihRight => exact joins.noted ihLeft ihRight

theorem Resumes.noted {settle : Call → World σ ω → Process × World σ ω}
    (settles : ∀ c w, (settle c w).2.observer = w.observer ∨ (settle c w).1.HasFailed)
    {p p' : Process} {w w' : World σ ω} (h : m.Resumes settle p w p' w') :
    w'.observer = w.observer ∨ p'.HasFailed := by
  induction h with
  | done => exact .inl rfl
  | call => exact settles _ _
  | named _ leaves ih =>
    rcases ih with same | failed
    · exact same ▸ leaves.noted strict
    · exact .inr (leaves.hasFailed failed)
  | seqOk _ starts ih =>
    rcases ih with same | failed
    · exact same ▸ starts.noted strict
    · exact failed.elim
  | seqError => exact .inr trivial
  | seqWait _ _ ih => exact ih
  | parEnds _ ends => exact .inr (hasFailed_of_ends ends)
  | par _ _ _ joins ihLeft ihRight => exact joins.noted ihLeft ihRight

omit strict in
theorem settleStopped_noted (c : Call) (w : World σ ω) :
    (settleStopped c w).2.observer = w.observer ∨ (settleStopped c w).1.HasFailed := by
  unfold settleStopped
  split <;> exact .inl rfl

theorem settle_noted (c : Call) (w : World σ ω) :
    (m.settle c w).2.observer = w.observer ∨ (m.settle c w).1.HasFailed := by
  unfold settle
  split
  · exact settleStopped_noted c w
  · unfold settleDue
    split
    · exact finish_noted strict c w
    · exact .inl rfl

/-- If a run that a strict observer watches yields a value then nothing was taken note of. -/
theorem observer_of_run_eq_ok {plan : Plan} {input v : Val} {s : σ} {o : ω} {clock : Nat}
    {cancelAfter : Option Nat} (ok : (m.run plan input s o clock cancelAfter).1 = .ok v) :
    (m.run plan input s o clock cancelAfter).2.observer = o := by
  have resumes : ∀ {settle p w p' w'},
      (∀ c w, (settle c w).2.observer = w.observer ∨ (settle c w).1.HasFailed) →
        m.Resumes settle p w p' w' → w.observer = o ∨ p.HasFailed →
          w'.observer = o ∨ p'.HasFailed := by
    rintro settle p w p' w' settles resumes (rfl | failed)
    · exact resumes.noted strict settles
    · exact .inr (resumes.hasFailed failed)
  have ends : (m.run plan input s o clock cancelAfter).2.observer = o ∨
      (Process.done (m.run plan input s o clock cancelAfter).1).HasFailed := by
    refine m.run_spec (I := fun p w ↦ w.observer = o ∨ p.HasFailed) ?_ ?_ ?_ ?_
    · intro p w starts
      exact starts.noted strict
    · intro p w p' w' noted swept
      exact resumes settleStopped_noted swept noted
    · intro p w t p' w' noted _ settled
      exact resumes (settle_noted strict) settled noted
    · intro p w t c noted _ _ _
      exact noted
  rw [ok] at ends
  exact ends.resolve_right id

end Strict

end Machine

/-- A guard changes nothing that it does not refuse.  The run of a program under a guard that is not
strict ends like the run that nobody watches, and leaves the same world behind but for the
violations that were found.  A strict guard lets a run end in a value just if the other one finds no
violation in it, and then both guards see the same run. -/
theorem watched_run (p : Program) (report : Report) (e : Executor σ) (policy : Policy) (input : Val)
    (s : σ) (clock : Nat) (cancelAfter : Option Nat) :
    let plain := Machine.run ⟨e, .blind, policy⟩ p.plan input s () clock cancelAfter
    let guarded (strict : Bool) :=
      let guard : Guard := ⟨report.nodeTypes, strict⟩
      Machine.run ⟨e, guard.observer, policy⟩ p.plan input s [] clock cancelAfter
    (plain.1 = (guarded false).1 ∧ plain.2 = { (guarded false).2 with observer := () }) ∧
      ∀ v, ((guarded true).1 = .ok v ↔
          (guarded false).1 = .ok v ∧ (guarded false).2.observer = []) ∧
        ((guarded true).1 = .ok v →
          guarded true = guarded false ∧ (guarded true).2.observer = []) := by
  intro plain guarded
  have watched : ∀ strict strict', (guarded strict).2.observer = [] →
      guarded strict' = guarded strict := by
    intro strict strict' clean
    have follows := Guard.follows report.nodeTypes strict strict'
    exact Machine.run_watched (m := ⟨e, _, policy⟩) follows clean
  have strictly : ∀ v, (guarded true).1 = .ok v → (guarded true).2.observer = [] := by
    intro v ok
    exact Machine.observer_of_run_eq_ok (Guard.strict_observer report.nodeTypes) ok
  refine ⟨?_, fun v ↦ ⟨⟨?_, ?_⟩, ?_⟩⟩
  · have blind := Observer.follows_blind (Guard.accepts report.nodeTypes)
    have same : plain = _ := Machine.run_watched (m := ⟨e, _, policy⟩) (o := []) blind trivial
    exact ⟨congrArg Prod.fst same, congrArg Prod.snd same⟩
  · intro ok
    have clean := strictly v ok
    rw [watched true false clean]
    exact ⟨ok, clean⟩
  · rintro ⟨ok, clean⟩
    rw [watched false true clean]
    exact ok
  · intro ok
    have clean := strictly v ok
    exact ⟨(watched true false clean).symm, clean⟩

end Taskflow
