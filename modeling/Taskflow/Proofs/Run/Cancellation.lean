import Taskflow.Grammar.Parse
import Taskflow.Proofs.Except
import Taskflow.Proofs.Run.Ledger
import Taskflow.Run.Script

/-!
# Cancellation

What happens in a run happens between its *moments*: the beginning, every end of a call and the
caller's cancellation.  `Machine.RunPasses` says which worlds a run passes through at these moments.
Whatever cancels the caller's scope does so at one of them (`Machine.exists_runPasses`).

A run that passes through a moment at which the caller's scope is cancelled is over at the same
instant (`World.StopsAt`).  From that moment on no plan starts (`Starts.of_cancelled`), every call
that goes on is given up, and a process that has lost a call can only fail (`Process.Doomed`).
These facts make up the invariant `Stopping` of what is left of the run.
-/

namespace Taskflow

variable {σ ω : Type}

/-! ## The moments of a run -/

/-- The world in which a call has just ended. -/
def World.over (w : World σ ω) (c : Call) : World σ ω :=
  (w.cancelBy c.reply).close c.ticket c.outcome

namespace Machine

variable (m : Machine σ ω)

/-- The moments of a plan that is started on a value: the ends of calls that take no time. -/
inductive StartPasses : Plan → Val → World σ ω → World σ ω → Prop
  | task {site v w} : w.stopped = false → (m.called site v w).reply.delay = 0 →
      StartPasses (.task site) v w ((m.asked site v w).over (m.called site v w))
  | named {site body v w u} : StartPasses body v w u → StartPasses (.named site body) v w u
  | inner {outer inner v w u} : StartPasses inner v w u → StartPasses (.seq outer inner) v w u
  | outer {outer inner v w x w₁ u} :
    m.Starts inner v w (.done (.ok x)) w₁ → StartPasses outer x w₁ u →
      StartPasses (.seq outer inner) v w u
  | left {left right v w u} :
    StartPasses left v (w.enter false) u → StartPasses (.par left right) v w u
  | right {left right v w l w₁ u} :
    m.Starts left v (w.enter false) l w₁ → m.ends l = false → StartPasses right v w₁ u →
      StartPasses (.par left right) v w u

/-- The moments of a process when its calls are settled: the ends of those that are due, and of what
is started because of them. -/
inductive ResumePasses : Process → World σ ω → World σ ω → Prop
  | call {c w} : w.stopped = false → c.wake ≤ w.clock → ResumePasses (.call c) w (w.over c)
  | named {site body w u} : ResumePasses body w u → ResumePasses (.named site body) w u
  | inner {outer inner w u} : ResumePasses inner w u → ResumePasses (.seq outer inner) w u
  | outer {outer inner w x w₁ u} :
    m.Resumes m.settle inner w (.done (.ok x)) w₁ → m.StartPasses outer x w₁ u →
      ResumePasses (.seq outer inner) w u
  | left {flag left right w u} :
    ResumePasses left (w.enter flag) u → ResumePasses (.par flag left right) w u
  | right {flag left right w l w₁ u} :
    m.Resumes m.settle left (w.enter flag) l w₁ → m.ends l = false → ResumePasses right w₁ u →
      ResumePasses (.par flag left right) w u

/-- The moments of a process that goes on to its end, if the caller cancels it at `cancelAt`. -/
inductive ProceedPasses : Option Nat → Process → World σ ω → World σ ω → Prop
  | now {cancelAt p w t u} :
    p.nextWake = some t → (∀ c, cancelAt = some c → t < c) →
      m.ResumePasses p { w with clock := t } u → ProceedPasses cancelAt p w u
  | later {cancelAt p w t u} :
    p.nextWake = some t → (∀ c, cancelAt = some c → t < c) →
      ProceedPasses cancelAt (m.tick p { w with clock := t }).1
        (m.tick p { w with clock := t }).2 u →
      ProceedPasses cancelAt p w u
  | cancel {c p w t} :
    p.nextWake = some t → c ≤ t →
      ProceedPasses (some c) p w { w with clock := c, cancelled := true }

/-- The instant at which the caller cancels a run that has begun. -/
def cancelAt (clock : Nat) (cancelAfter : Option Nat) : Option Nat :=
  if cancelAfter == some 0 then none else cancelAfter.map (clock + ·)

/-- Where a run has got when its plan has been started. -/
def begun (plan : Plan) (input : Val) (s : σ) (o : ω) (clock : Nat) (cancelAfter : Option Nat) :
    Process × World σ ω :=
  let (p, w) := m.start plan input (initial s o clock cancelAfter)
  m.sweep p w

/-- The moments of a run. -/
inductive RunPasses (plan : Plan) (input : Val) (s : σ) (o : ω) (clock : Nat)
    (cancelAfter : Option Nat) : World σ ω → Prop
  | initial : RunPasses plan input s o clock cancelAfter (initial s o clock cancelAfter)
  | start {u} : m.StartPasses plan input (initial s o clock cancelAfter) u →
      RunPasses plan input s o clock cancelAfter u
  | proceed {u} :
    m.ProceedPasses (cancelAt clock cancelAfter) (m.begun plan input s o clock cancelAfter).1
        (m.begun plan input s o clock cancelAfter).2 u →
      RunPasses plan input s o clock cancelAfter u

end Machine

/-- What the log says of a call if all that goes on is given up at the instant `t`. -/
def CallRecord.giveUp (t : Nat) (r : CallRecord) : CallRecord :=
  match r.ending with
  | none => { r with ending := some (t, .dropped) }
  | some _ => r

/-- A run that stops in the world `u`: from then on no call begins, all calls that go on are given
up, no time passes, and if there was a call to give up then the run fails. -/
structure World.StopsAt (u : World σ ω) (ended : Except RunError Val × World σ ω) : Prop where
  cancelled : ended.2.cancelled = true
  clock : ended.2.clock = u.clock
  executor : ended.2.executor = u.executor
  calls : ended.2.calls = u.calls.map (CallRecord.giveUp u.clock)
  failed : (∃ r ∈ u.calls, r.ending = none) → ∃ e, ended.1 = .error e

/-! ## Worlds that fade -/

namespace World

/-- Whether nothing has happened between two worlds but that calls were given up. -/
structure Fades (u w : World σ ω) : Prop where
  executor : w.executor = u.executor
  clock : w.clock = u.clock
  calls : ∀ i : Nat, w.calls[i]? = u.calls[i]? ∨ ∃ r, u.calls[i]? = some r ∧ r.ending = none ∧
    w.calls[i]? = some { r with ending := some (u.clock, .dropped) }

theorem Fades.refl (w : World σ ω) : w.Fades w := ⟨rfl, rfl, fun _ ↦ .inl rfl⟩

theorem Fades.trans {u w w' : World σ ω} (h : u.Fades w) (h' : w.Fades w') : u.Fades w' := by
  refine ⟨h'.executor.trans h.executor, h'.clock.trans h.clock, fun i ↦ ?_⟩
  rcases h'.calls i with same | ⟨r, found, opened, given⟩
  · rw [same]
    exact h.calls i
  · rw [h.clock] at given
    rcases h.calls i with same | ⟨r', -, -, closed⟩
    · exact .inr ⟨r, same.symm.trans found, opened, given⟩
    · obtain rfl := Option.some.inj (found.symm.trans closed)
      cases opened

theorem SameLog.enter (w : World σ ω) (flag : Bool) : w.SameLog (w.enter flag) := ⟨rfl, rfl, rfl⟩

theorem SameLog.leave (w : World σ ω) : w.SameLog w.leave := ⟨rfl, rfl, rfl⟩

theorem SameLog.fades {w w' : World σ ω} (same : w.SameLog w') : w.Fades w' :=
  ⟨same.executor, same.clock, fun _ ↦ .inl (by rw [same.calls])⟩

/-- Where no call goes on any more all that went on was given up. -/
theorem Fades.calls_eq {u w : World σ ω} (h : u.Fades w)
    (closed : ∀ r ∈ w.calls, r.ending.isSome) :
    w.calls = u.calls.map (CallRecord.giveUp u.clock) := by
  refine List.ext_getElem? fun i ↦ ?_
  rw [List.getElem?_map]
  rcases h.calls i with same | ⟨r, found, opened, given⟩
  · rw [same]
    cases found : u.calls[i]? with
    | none => rfl
    | some r =>
      have ended := closed r (List.mem_of_getElem? (same.trans found))
      obtain ⟨ending, ended⟩ := Option.isSome_iff_exists.1 ended
      simp [CallRecord.giveUp, ended]
  · rw [given, found]
    simp [CallRecord.giveUp, opened]

end World

/-- Giving up a call that goes on. -/
theorem Ledger.fades_close {e : Executor σ} {s : σ} {w : World σ ω} {c : Call} {cs : List Call}
    (ledger : Ledger e s w (c :: cs)) : w.Fades (w.close c.ticket .dropped) := by
  refine ⟨rfl, rfl, fun i ↦ ?_⟩
  rw [World.getElem?_calls_close]
  split
  next here =>
    obtain ⟨start, found, -⟩ := ledger.entry c List.mem_cons_self
    rw [here] at found
    refine .inr ⟨_, found, rfl, ?_⟩
    rw [found]
    rfl
  next => exact .inl rfl

/-! ## What cancellation leaves behind -/

/-- Whether a process can only fail if everything is given up: it has failed in part, or it waits
for a call. -/
def Process.Doomed : Process → Prop
  | .done (.ok _) => False
  | .done (.error _) => True
  | .call _ => True
  | .named _ body => body.Doomed
  | .seq _ inner => inner.Doomed
  | .par _ left right => left.Doomed ∨ right.Doomed

/-- A process in which no call goes on waits for nothing. -/
theorem Process.nextWake_eq_none {p : Process} (h : p.calls = []) : p.nextWake = none := by
  rw [Option.eq_none_iff_forall_ne_some]
  intro t wake
  obtain ⟨-, c, hc, -⟩ := nextWake_spec wake
  rw [h] at hc
  cases hc

/-- What is doomed fails in the end. -/
theorem Process.Doomed.failed {p : Process} (doomed : p.Doomed) (done : p.isDone = true) :
    ∃ e, p.result = .error e := by
  rw [eq_done_of_isDone done] at doomed
  cases failed : p.result with
  | ok v =>
    rw [failed] at doomed
    exact doomed.elim
  | error e => exact ⟨e, rfl⟩

/-- What is left, in the world `w`, of a run that was cancelled in the world `u`: of all that goes
on `p` has a part, and `F` is the rest. -/
structure Stopping (e : Executor σ) (s : σ) (u : World σ ω) (p : Process) (w : World σ ω)
    (F : List Call) : Prop where
  cancelled : w.cancelled = true
  ledger : Ledger e s w (p.calls ++ F)
  fades : u.Fades w
  /-- a call is given up only where the run fails because of that -/
  spared : w.calls = u.calls ∨ p.Doomed

namespace Stopping

variable {e : Executor σ} {s : σ} {u w w' : World σ ω} {p q : Process} {F : List Call}

theorem refl (cancelled : w.cancelled = true) (ledger : Ledger e s w (p.calls ++ F)) :
    Stopping e s w p w F :=
  ⟨cancelled, ledger, .refl w, .inl rfl⟩

theorem trans {G : List Call} (h : Stopping e s u p w G) (h' : Stopping e s w q w' F)
    (doomed : p.Doomed → q.Doomed) : Stopping e s u q w' F := by
  refine ⟨h'.cancelled, h'.ledger, h.fades.trans h'.fades, ?_⟩
  rcases h'.spared with same | lost
  · rw [same]
    exact h.spared.imp_right doomed
  · exact .inr lost

/-- A process may take the place of another that waits for the same calls. -/
theorem replace (h : Stopping e s u p w F) (calls : q.calls = p.calls)
    (doomed : p.Doomed → q.Doomed) : Stopping e s u q w F :=
  ⟨h.cancelled, calls ▸ h.ledger, h.fades, h.spared.imp_right doomed⟩

theorem same (h : Stopping e s u p w F) (same : w.SameLog w')
    (cancelled : w'.cancelled = w.cancelled) : Stopping e s u p w' F := by
  refine ⟨cancelled.trans h.cancelled, h.ledger.same same, h.fades.trans same.fades, ?_⟩
  rw [same.calls]
  exact h.spared

theorem since {u' : World σ ω} (h : Stopping e s u p w F) (same : u'.SameLog u) :
    Stopping e s u' p w F := by
  refine ⟨h.cancelled, h.ledger, same.fades.trans h.fades, ?_⟩
  rw [← same.calls]
  exact h.spared

/-- What stops beside another branch of a product stops with it. -/
theorem beside {left right : Process} (h : Stopping e s u right w (left.calls ++ F)) (flag : Bool) :
    Stopping e s u (.par flag left right) w F := by
  refine ⟨h.cancelled, h.ledger.perm ?_, h.fades, h.spared.imp_right .inr⟩
  rw [Process.calls, List.append_assoc]
  exact List.perm_append_comm_assoc _ _ _

/-- A process of which nothing is left but an error stops at any cost. -/
theorem drop {r : Process} {error : RunError}
    (h : Stopping e s u (.done (.error error)) w (r.calls ++ F)) :
    Stopping e s u (.done (.error error)) (r.drop w) F := by
  have kept : Ledger e s (r.drop w) F ∧ u.Fades (r.drop w) := by
    refine Machine.drop_keeps (K := fun w cs ↦ Ledger e s w cs ∧ u.Fades w) ?_ ⟨h.ledger, h.fades⟩
    intro w c cs k
    exact ⟨k.1.close _, k.2.trans k.1.fades_close⟩
  refine ⟨?_, kept.1, kept.2, .inr trivial⟩
  rw [Process.cancelled_drop]
  exact h.cancelled

variable {m : Machine σ ω}

theorem leaves (h : Stopping e s u p w F) {site : Site} (leaves : m.Leaves site p w q w') :
    Stopping e s u q w' F := by
  cases leaves with
  | @ok v w =>
    obtain ⟨none, same⟩ := m.observe_sameLog site v w
    have cancelled : (m.observe site v w).2.cancelled = w.cancelled := by
      unfold Machine.observe
      split <;> rfl
    exact (h.same same cancelled).replace none False.elim
  | error => exact h
  | wait => exact h.replace rfl id

theorem joins {flag : Bool} {left right : Process} (h : Stopping e s u (.par flag left right) w F)
    (joins : m.Joins w left right q w') : Stopping e s u q w' F := by
  have leave : ∀ {p}, Stopping e s u p w F → Stopping e s u p w.leave F :=
    fun h ↦ h.same (.leave _) rfl
  cases joins with
  | ok => exact leave (h.replace rfl (by rintro (⟨⟨⟩⟩ | ⟨⟨⟩⟩)))
  | left => exact leave (h.replace rfl fun _ ↦ trivial)
  | right => exact leave (h.replace rfl fun _ ↦ trivial)
  | @dropLeft left error pending policy =>
    have alone : Stopping e s u (.done (.error error)) w (left.calls ++ F) := by
      refine ⟨h.cancelled, ?_, h.fades, .inr trivial⟩
      have ledger := h.ledger
      rwa [Process.calls, List.append_assoc] at ledger
    exact alone.drop.same (.leave _) rfl
  | @dropRight error right pending policy =>
    have alone : Stopping e s u (.done (.error error)) w (right.calls ++ F) :=
      ⟨h.cancelled, h.ledger, h.fades, .inr trivial⟩
    exact alone.drop.same (.leave _) rfl
  | wait => exact leave (h.replace rfl id)

end Stopping

namespace Machine

variable {m : Machine σ ω} {e : Executor σ} {s : σ} {u w w' : World σ ω}

/-- In a cancelled scope nothing is started. -/
theorem Starts.of_stopped {plan : Plan} {v : Val} {p : Process} (h : m.Starts plan v w p w')
    (stopped : w.stopped = true) : p = .done (.error .cancelled) ∧ w' = w := by
  induction h with
  | task => simp [begin, stopped]
  | named _ leaves ih =>
    obtain ⟨rfl, rfl⟩ := ih stopped
    cases leaves with
    | error => exact ⟨rfl, rfl⟩
    | wait pending => cases pending
  | seqOk _ _ ih => cases (ih stopped).1
  | seqError _ ih => exact ih stopped
  | seqWait _ pending ih =>
    rw [(ih stopped).1] at pending
    cases pending
  | parEnds _ _ ih =>
    obtain ⟨rfl, rfl⟩ := ih ((World.stopped_enter _).trans stopped)
    exact ⟨rfl, rfl⟩
  | par _ _ _ joins ihLeft ihRight =>
    have inside := (World.stopped_enter _).trans stopped
    obtain ⟨rfl, rfl⟩ := ihLeft inside
    obtain ⟨rfl, rfl⟩ := ihRight inside
    cases joins with
    | left => exact ⟨rfl, rfl⟩
    | dropLeft pending => cases pending
    | dropRight pending => cases pending
    | wait pending => cases pending

theorem Starts.of_cancelled {plan : Plan} {v : Val} {p : Process} (h : m.Starts plan v w p w')
    (cancelled : w.cancelled = true) : p = .done (.error .cancelled) ∧ w' = w :=
  h.of_stopped (by simp [World.stopped, cancelled])

/-- Whether calls are given up wherever the run is cancelled. -/
def GivesUp (settle : Call → World σ ω → Process × World σ ω) : Prop := ∀ c w, w.cancelled = true →
  settle c w = (.done (.error .cancelled), w.close c.ticket .dropped)

theorem givesUp_settleStopped :
    GivesUp (settleStopped : Call → World σ ω → Process × World σ ω) := by
  intro c w cancelled
  simp [settleStopped, World.stopped, cancelled]

theorem givesUp_settle (m : Machine σ ω) : GivesUp m.settle := by
  intro c w cancelled
  rw [settle, if_pos (by simp [World.stopped, cancelled])]
  exact givesUp_settleStopped c w cancelled

theorem Joins.calls_eq_nil {left right q : Process} (h : m.Joins w left right q w')
    (noneLeft : left.calls = []) (noneRight : right.calls = []) : q.calls = [] := by
  cases h with
  | wait => rw [Process.calls, noneLeft, noneRight, List.append_nil]
  | _ => rfl

theorem Joins.doomed {left right q : Process} (h : m.Joins w left right q w')
    (lost : left.Doomed ∨ right.Doomed) : q.Doomed := by
  cases h with
  | ok => exact lost.elim False.elim False.elim
  | wait => exact lost
  | _ => trivial

/-- In a cancelled run all that goes on is given up. -/
theorem Resumes.of_cancelled {settle : Call → World σ ω → Process × World σ ω}
    (gives : GivesUp settle) {p p' : Process} (h : m.Resumes settle p w p' w')
    (cancelled : w.cancelled = true) {F : List Call} (ledger : Ledger e s w (p.calls ++ F)) :
    Stopping e s w p' w' F ∧ p'.calls = [] ∧ (p.Doomed → p'.Doomed) := by
  induction h generalizing F with
  | done => exact ⟨.refl cancelled ledger, rfl, id⟩
  | call =>
    rw [gives _ _ cancelled]
    exact ⟨⟨cancelled, ledger.close _, ledger.fades_close, .inr trivial⟩, rfl, fun _ ↦ trivial⟩
  | named _ leaves ih =>
    obtain ⟨stopping, none, doomed⟩ := ih cancelled ledger
    refine ⟨stopping.leaves leaves, ?_, ?_⟩
    · cases leaves with
      | ok => exact (m.observe_sameLog _ _ _).1
      | error | wait => exact none
    · intro lost
      cases leaves with
      | ok => exact (doomed lost).elim
      | error | wait => exact doomed lost
  | seqOk _ starts ih =>
    obtain ⟨stopping, none, doomed⟩ := ih cancelled ledger
    obtain ⟨rfl, rfl⟩ := starts.of_cancelled stopping.cancelled
    exact ⟨stopping.replace rfl fun _ ↦ trivial, rfl, fun _ ↦ trivial⟩
  | seqError _ ih => exact ih cancelled ledger
  | seqWait _ _ ih =>
    obtain ⟨stopping, none, doomed⟩ := ih cancelled ledger
    exact ⟨stopping.replace rfl id, none, doomed⟩
  | parEnds _ ends ih =>
    obtain ⟨error, rfl, -⟩ := m.ends_iff.1 ends
    rw [Process.calls, List.append_assoc] at ledger
    obtain ⟨stopping, -, -⟩ := ih cancelled (ledger.same (.enter _ _))
    have entered : Stopping e s _ _ _ _ := stopping.since (.enter _ _)
    exact ⟨entered.drop.same (.leave _) rfl, rfl, fun _ ↦ trivial⟩
  | par _ _ _ joins ihLeft ihRight =>
    rw [Process.calls, List.append_assoc] at ledger
    obtain ⟨left, noneLeft, doomedLeft⟩ := ihLeft cancelled (ledger.same (.enter _ _))
    obtain ⟨right, noneRight, doomedRight⟩ :=
      ihRight left.cancelled (left.ledger.perm (List.perm_append_comm_assoc _ _ _))
    have both := (left.since (.enter _ _)).trans (right.beside false) .inl
    refine ⟨both.joins joins, joins.calls_eq_nil noneLeft noneRight, fun lost ↦ ?_⟩
    exact joins.doomed (lost.imp doomedLeft doomedRight)

/-! ## From a moment to the end of its instant -/

theorem Starts.ledger {plan : Plan} {v : Val} {p : Process} (h : m.Starts plan v w p w')
    {F : List Call} (ledger : Ledger m.executor s w F) :
    Ledger m.executor s w' (p.calls ++ F) :=
  h.keeps (Ledger.bookkeeping m s) ledger

theorem Resumes.ledger {p p' : Process} (h : m.Resumes m.settle p w p' w') {F : List Call}
    (ledger : Ledger m.executor s w (p.calls ++ F)) : Ledger m.executor s w' (p'.calls ++ F) :=
  have book := Ledger.bookkeeping m s
  h.keeps book (settle_keeps book fun ledger ↦ ledger.close _) ledger

/-- A call that cancels the run when it ends. -/
theorem finish_stopping {c : Call} {F : List Call} (cancelled : (w.over c).cancelled = true)
    (ledger : Ledger m.executor s w (c :: F)) :
    Stopping m.executor s (w.over c) (m.finish c w).1 (m.finish c w).2 F := by
  have same : w.SameLog (w.cancelBy c.reply) := ⟨by simp, by simp, by simp⟩
  have closed : Ledger m.executor s (w.over c) F := (ledger.same same).close c.outcome
  rw [World.over] at *
  unfold finish
  dsimp only
  split
  · exact (Stopping.refl (p := .done (.ok _)) cancelled closed).leaves .ok
  · exact .refl cancelled closed

/-- If a run is cancelled while a plan is started, then what has become of the plan stops. -/
theorem StartPasses.stopping {plan : Plan} {v : Val} (passes : m.StartPasses plan v w u)
    (cancelled : u.cancelled = true) {p : Process} (h : m.Starts plan v w p w') {F : List Call}
    (ledger : Ledger m.executor s w F) : Stopping m.executor s u p w' F := by
  induction passes generalizing p w' F with
  | @task site v w going now =>
    cases h with
    | task =>
      have begun : m.begin site v w = m.finish (m.called site v w) (m.asked site v w) := by
        rw [begin, if_neg (by simp [going])]
        exact if_pos now
      rw [begun]
      exact finish_stopping cancelled (ledger.ask site v)
  | named _ ih =>
    cases h with
    | named body leaves => exact (ih cancelled body ledger).leaves leaves
  | inner _ ih =>
    cases h with
    | seqOk inner outer =>
      have stopping := ih cancelled inner ledger
      obtain ⟨rfl, rfl⟩ := outer.of_cancelled stopping.cancelled
      exact stopping.replace rfl fun _ ↦ trivial
    | seqError inner => exact ih cancelled inner ledger
    | seqWait inner => exact (ih cancelled inner ledger).replace rfl id
  | outer first _ ih =>
    cases h with
    | seqOk inner outer =>
      cases first.eq.symm.trans inner.eq
      exact ih cancelled outer (first.ledger ledger)
    | seqError inner => cases first.eq.symm.trans inner.eq
    | seqWait inner pending =>
      cases first.eq.symm.trans inner.eq
      cases pending
  | left _ ih =>
    cases h with
    | parEnds left => exact (ih cancelled left (ledger.same (.enter _ _))).same (.leave _) rfl
    | par left _ right joins =>
      have stopping := ih cancelled left (ledger.same (.enter _ _))
      obtain ⟨rfl, rfl⟩ := right.of_cancelled stopping.cancelled
      have still : Stopping m.executor s _ (.done (.error .cancelled)) _ _ :=
        .refl stopping.cancelled stopping.ledger
      exact (stopping.trans (still.beside false) .inl).joins joins
  | right first notLeft _ ih =>
    cases h with
    | parEnds left ends =>
      cases first.eq.symm.trans left.eq
      cases ends.symm.trans notLeft
    | par left _ right joins =>
      cases first.eq.symm.trans left.eq
      have stopping := ih cancelled right (first.ledger (ledger.same (.enter _ _)))
      exact (stopping.beside false).joins joins

/-- If a run is cancelled while a process is resumed, then what has become of the process stops. -/
theorem ResumePasses.stopping {p : Process} (passes : m.ResumePasses p w u)
    (cancelled : u.cancelled = true) {p' : Process} (h : m.Resumes m.settle p w p' w')
    {F : List Call} (ledger : Ledger m.executor s w (p.calls ++ F)) :
    Stopping m.executor s u p' w' F := by
  induction passes generalizing p' w' F with
  | @call c w going due =>
    cases h with
    | call =>
      have finish : m.settle c w = m.finish c w := by
        rw [settle, if_neg (by simp [going]), settleDue, if_pos due]
      rw [finish]
      exact finish_stopping cancelled ledger
  | named _ ih =>
    cases h with
    | named body leaves => exact (ih cancelled body ledger).leaves leaves
  | inner _ ih =>
    cases h with
    | seqOk inner outer =>
      have stopping := ih cancelled inner ledger
      obtain ⟨rfl, rfl⟩ := outer.of_cancelled stopping.cancelled
      exact stopping.replace rfl fun _ ↦ trivial
    | seqError inner => exact ih cancelled inner ledger
    | seqWait inner => exact (ih cancelled inner ledger).replace rfl id
  | outer first passes =>
    cases h with
    | seqOk inner outer =>
      cases first.eq.symm.trans inner.eq
      exact passes.stopping cancelled outer (first.ledger ledger)
    | seqError inner => cases first.eq.symm.trans inner.eq
    | seqWait inner pending =>
      cases first.eq.symm.trans inner.eq
      cases pending
  | left _ ih =>
    rw [Process.calls, List.append_assoc] at ledger
    cases h with
    | parEnds left ends =>
      have stopping := ih cancelled left (ledger.same (.enter _ _))
      obtain ⟨error, rfl, -⟩ := m.ends_iff.1 ends
      exact stopping.drop.same (.leave _) rfl
    | par left _ right joins =>
      have stopping := ih cancelled left (ledger.same (.enter _ _))
      obtain ⟨still, -, -⟩ := right.of_cancelled m.givesUp_settle stopping.cancelled
        (stopping.ledger.perm (List.perm_append_comm_assoc _ _ _))
      exact (stopping.trans (still.beside false) .inl).joins joins
  | right first notLeft _ ih =>
    rw [Process.calls, List.append_assoc] at ledger
    cases h with
    | parEnds left ends =>
      cases first.eq.symm.trans left.eq
      cases ends.symm.trans notLeft
    | par left _ right joins =>
      cases first.eq.symm.trans left.eq
      have first := first.ledger (ledger.same (.enter _ _))
      have stopping := ih cancelled right (first.perm (List.perm_append_comm_assoc _ _ _))
      exact (stopping.beside false).joins joins

/-! ## From a moment to the end of the run -/

/-- Once everything is given up the run is over. -/
theorem stopsAt_proceed_sweep {p : Process} (stopping : Stopping m.executor s u p w [])
    (cancelAt : Option Nat) :
    u.StopsAt (m.proceed cancelAt (m.sweep p w).1 (m.sweep p w).2) := by
  have sweeps : m.Resumes settleStopped p w (m.sweep p w).1 (m.sweep p w).2 := m.resumes _ _ _
  obtain ⟨swept, none, doomed⟩ :=
    sweeps.of_cancelled givesUp_settleStopped stopping.cancelled stopping.ledger
  have stopped := stopping.trans swept doomed
  have quiet := Process.nextWake_eq_none none
  have closed : ∀ r ∈ (m.sweep p w).2.calls, r.ending.isSome := by
    have ledger := stopped.ledger
    rw [none] at ledger
    exact fun r hr ↦ ledger.ending_isSome hr
  rw [m.proceed_of_quiet cancelAt _ quiet]
  refine ⟨stopped.cancelled, stopped.fades.clock, stopped.fades.executor,
    stopped.fades.calls_eq closed, ?_⟩
  rintro ⟨r, hr, opened⟩
  rcases stopped.spared with same | lost
  · have ended := closed r (same ▸ hr)
    rw [opened] at ended
    cases ended
  · exact lost.failed ((m.settled_sweep p w).isDone quiet)

theorem sweep_ledger {p : Process} (ledger : Ledger m.executor s w p.calls) :
    Ledger m.executor s (m.sweep p w).2 (m.sweep p w).1.calls := by
  rw [← List.append_nil (m.sweep p w).1.calls]
  have sweeps : m.Resumes settleStopped p w (m.sweep p w).1 (m.sweep p w).2 := m.resumes _ _ _
  refine sweeps.keeps (Ledger.bookkeeping m s) (settleStopped_keeps fun ledger ↦ ledger.close _) ?_
  rwa [List.append_nil]

theorem tick_ledger {p : Process} (ledger : Ledger m.executor s w p.calls) :
    Ledger m.executor s (m.tick p w).2 (m.tick p w).1.calls := by
  refine sweep_ledger ?_
  rw [← List.append_nil (Process.calls _)]
  refine (m.resumes _ _ _).ledger ?_
  rwa [List.append_nil]

/-- A run that is cancelled at a moment stops there. -/
theorem ProceedPasses.stopsAt {cancelAt : Option Nat} {p : Process}
    (passes : m.ProceedPasses cancelAt p w u) (cancelled : u.cancelled = true)
    (ledger : Ledger m.executor s w p.calls) : u.StopsAt (m.proceed cancelAt p w) := by
  induction passes with
  | @now cancelAt p w t u wake before passes =>
    rw [m.proceed_of_wake w wake before]
    have due : Ledger m.executor s { w with clock := t } (p.calls ++ []) := by
      rw [List.append_nil]
      exact ledger.advance t w.cancelled
    exact stopsAt_proceed_sweep (passes.stopping cancelled (m.resumes _ _ _) due) cancelAt
  | @later cancelAt p w t u wake before _ ih =>
    rw [m.proceed_of_wake w wake before]
    exact ih cancelled (tick_ledger (ledger.advance t w.cancelled))
  | @cancel c p w t wake due =>
    rw [m.proceed_of_cancel w wake due]
    have left : Ledger m.executor s { w with clock := c, cancelled := true } (p.calls ++ []) := by
      rw [List.append_nil]
      exact ledger.advance c true
    exact stopsAt_proceed_sweep (.refl rfl left) none

theorem clock_tick (m : Machine σ ω) (p : Process) (w : World σ ω) :
    (m.tick p w).2.clock = w.clock :=
  (m.clock_resume clock_settleStopped _ _).trans (m.clock_resume m.clock_settle p w)

/-- The caller's cancellation ends a run. -/
theorem clock_proceed_le {c : Nat} {p : Process} (ledger : Ledger m.executor s w p.calls)
    (le : w.clock ≤ c) : (m.proceed (some c) p w).2.clock ≤ c := by
  generalize at' : some c = cancelAt
  fun_induction proceed m cancelAt p w with
  | case1 => exact le
  | case2 => cases at'
  | case3 p w t wake _ c due _ r ih =>
    cases at'
    have left : Ledger m.executor s { w with clock := c, cancelled := true } (p.calls ++ []) := by
      rw [List.append_nil]
      exact ledger.advance c true
    exact Nat.le_of_eq (stopsAt_proceed_sweep (.refl rfl left) none).clock
  | case4 p w t wake _ c late r ih =>
    cases at'
    refine ih (tick_ledger (ledger.advance t w.cancelled)) ?_ rfl
    rw [show (m.tick p { w with clock := t }).2.clock = t from m.clock_tick p { w with clock := t }]
    exact Nat.le_of_lt (Nat.not_le.1 late)

/-! ## Every cancellation happens at a moment -/

theorem Leaves.cancelled_eq {site : Site} {p q : Process} (h : m.Leaves site p w q w') :
    w'.cancelled = w.cancelled := by
  cases h with
  | ok =>
    unfold observe
    split <;> rfl
  | error | wait => rfl

theorem Joins.cancelled_eq {left right q : Process} (h : m.Joins w left right q w') :
    w'.cancelled = w.cancelled := by
  cases h with
  | dropLeft | dropRight => exact Process.cancelled_drop _ _
  | _ => rfl

theorem cancelled_finish (m : Machine σ ω) (c : Call) (w : World σ ω) :
    (m.finish c w).2.cancelled = (w.over c).cancelled := by
  unfold finish
  dsimp only
  split
  · unfold observe
    split <;> rfl
  · rfl

/-- What is cancelled while a plan is started is cancelled by the end of a call. -/
theorem Starts.exists_startPasses {plan : Plan} {v : Val} {p : Process}
    (h : m.Starts plan v w p w') (going : w.cancelled = false) (cancelled : w'.cancelled = true) :
    ∃ u, m.StartPasses plan v w u ∧ u.cancelled = true := by
  induction h with
  | @task site v w =>
    by_cases stopped : w.stopped = true
    · simp [begin, stopped, going] at cancelled
    · rw [begin, if_neg stopped] at cancelled
      dsimp only at cancelled
      split at cancelled
      next now =>
        rw [cancelled_finish] at cancelled
        exact ⟨_, .task (by simpa using stopped) now, cancelled⟩
      next => exact absurd cancelled (by simp [going])
  | named _ leaves ih =>
    obtain ⟨u, passes, cancelled⟩ := ih going (leaves.cancelled_eq.symm.trans cancelled)
    exact ⟨u, .named passes, cancelled⟩
  | @seqOk outer inner v w x w₁ p w₂ first _ ihInner ihOuter =>
    cases between : w₁.cancelled with
    | true =>
      obtain ⟨u, passes, cancelled⟩ := ihInner going between
      exact ⟨u, .inner passes, cancelled⟩
    | false =>
      obtain ⟨u, passes, cancelled⟩ := ihOuter between cancelled
      exact ⟨u, .outer first passes, cancelled⟩
  | seqError _ ih =>
    obtain ⟨u, passes, cancelled⟩ := ih going cancelled
    exact ⟨u, .inner passes, cancelled⟩
  | seqWait _ _ ih =>
    obtain ⟨u, passes, cancelled⟩ := ih going cancelled
    exact ⟨u, .inner passes, cancelled⟩
  | parEnds _ _ ih =>
    obtain ⟨u, passes, cancelled⟩ := ih going cancelled
    exact ⟨u, .left passes, cancelled⟩
  | @par left right v w l w₁ r w₂ p w₃ first notLeft _ joins ihLeft ihRight =>
    cases between : w₁.cancelled with
    | true =>
      obtain ⟨u, passes, cancelled⟩ := ihLeft going between
      exact ⟨u, .left passes, cancelled⟩
    | false =>
      obtain ⟨u, passes, cancelled⟩ := ihRight between (joins.cancelled_eq.symm.trans cancelled)
      exact ⟨u, .right first notLeft passes, cancelled⟩

/-- What is cancelled while a process is resumed is cancelled by the end of a call. -/
theorem Resumes.exists_resumePasses {p p' : Process} (h : m.Resumes m.settle p w p' w')
    (going : w.cancelled = false) (cancelled : w'.cancelled = true) :
    ∃ u, m.ResumePasses p w u ∧ u.cancelled = true := by
  induction h with
  | done => cases going.symm.trans cancelled
  | @call c w =>
    unfold settle at cancelled
    split at cancelled
    next stopped =>
      rw [settleStopped, if_pos stopped] at cancelled
      cases going.symm.trans cancelled
    next going' =>
      unfold settleDue at cancelled
      split at cancelled
      next due =>
        rw [cancelled_finish] at cancelled
        exact ⟨_, .call (by simpa using going') due, cancelled⟩
      next => cases going.symm.trans cancelled
  | named _ leaves ih =>
    obtain ⟨u, passes, cancelled⟩ := ih going (leaves.cancelled_eq.symm.trans cancelled)
    exact ⟨u, .named passes, cancelled⟩
  | @seqOk outer inner w x w₁ p w₂ first starts ih =>
    cases between : w₁.cancelled with
    | true =>
      obtain ⟨u, passes, cancelled⟩ := ih going between
      exact ⟨u, .inner passes, cancelled⟩
    | false =>
      obtain ⟨u, passes, cancelled⟩ := starts.exists_startPasses between cancelled
      exact ⟨u, .outer first passes, cancelled⟩
  | seqError _ ih =>
    obtain ⟨u, passes, cancelled⟩ := ih going cancelled
    exact ⟨u, .inner passes, cancelled⟩
  | seqWait _ _ ih =>
    obtain ⟨u, passes, cancelled⟩ := ih going cancelled
    exact ⟨u, .inner passes, cancelled⟩
  | parEnds _ _ ih =>
    obtain ⟨u, passes, cancelled⟩ := ih going ((Process.cancelled_drop _ _).symm.trans cancelled)
    exact ⟨u, .left passes, cancelled⟩
  | @par flag left right w l w₁ r w₂ p w₃ first notLeft _ joins ihLeft ihRight =>
    cases between : w₁.cancelled with
    | true =>
      obtain ⟨u, passes, cancelled⟩ := ihLeft going between
      exact ⟨u, .left passes, cancelled⟩
    | false =>
      obtain ⟨u, passes, cancelled⟩ := ihRight between (joins.cancelled_eq.symm.trans cancelled)
      exact ⟨u, .right first notLeft passes, cancelled⟩

/-- Giving up calls cancels nothing, and what waits for a call does not succeed by it. -/
theorem Resumes.of_settleStopped {p p' : Process} (h : m.Resumes settleStopped p w p' w')
    (settled : m.Settled p) :
    w'.cancelled = w.cancelled ∧ (p.isDone = false → ∀ v, p' ≠ .done (.ok v)) := by
  induction h with
  | done => exact ⟨rfl, nofun⟩
  | call =>
    unfold settleStopped
    split
    · exact ⟨rfl, fun _ v ↦ nofun⟩
    · exact ⟨rfl, fun _ v ↦ nofun⟩
  | named _ leaves ih =>
    obtain ⟨same, pending⟩ := ih settled.1
    refine ⟨leaves.cancelled_eq.trans same, fun _ v ↦ ?_⟩
    cases leaves with
    | ok => exact (pending settled.2 _ rfl).elim
    | error | wait => rintro ⟨⟩
  | seqOk _ _ ih => exact ((ih settled.1).2 settled.2 _ rfl).elim
  | seqError _ ih => exact ⟨(ih settled.1).1, fun _ v ↦ nofun⟩
  | seqWait _ _ ih => exact ⟨(ih settled.1).1, fun _ v ↦ nofun⟩
  | parEnds _ ends ih =>
    obtain ⟨error, rfl, -⟩ := m.ends_iff.1 ends
    refine ⟨(Process.cancelled_drop _ _).trans (ih settled.1).1, fun _ v ↦ nofun⟩
  | par _ _ _ joins ihLeft ihRight =>
    obtain ⟨settledLeft, settledRight, pending, -, -⟩ := settled
    obtain ⟨left, pendingLeft⟩ := ihLeft settledLeft
    obtain ⟨right, pendingRight⟩ := ihRight settledRight
    refine ⟨joins.cancelled_eq.trans (right.trans left), fun _ v ↦ ?_⟩
    cases joins with
    | ok =>
      rw [Bool.and_eq_false_iff] at pending
      rcases pending with pending | pending
      · exact (pendingLeft pending _ rfl).elim
      · exact (pendingRight pending _ rfl).elim
    | _ => rintro ⟨⟩

theorem cancelled_sweep {p : Process} (settled : m.Settled p) (w : World σ ω) :
    (m.sweep p w).2.cancelled = w.cancelled :=
  ((m.resumes settleStopped p w).of_settleStopped settled).1

/-- What is cancelled at an instant is cancelled by the end of a call. -/
theorem exists_resumePasses_of_tick {p : Process} (going : w.cancelled = false)
    (cancelled : (m.tick p w).2.cancelled = true) :
    ∃ u, m.ResumePasses p w u ∧ u.cancelled = true := by
  have resumes := m.resumes m.settle p w
  refine resumes.exists_resumePasses going ?_
  rw [← cancelled_sweep (resumes.settled settled_settle)]
  exact cancelled

/-- What is cancelled while a process goes on is cancelled at a moment. -/
theorem exists_proceedPasses (m : Machine σ ω) {cancelAt : Option Nat} {p : Process}
    {w : World σ ω} (going : w.cancelled = false)
    (cancelled : (m.proceed cancelAt p w).2.cancelled = true) :
    ∃ u, m.ProceedPasses cancelAt p w u ∧ u.cancelled = true := by
  -- an instant that cancels nothing leaves the cancellation to a later one
  have tick : ∀ {cancelAt p t} {w : World σ ω}, p.nextWake = some t →
      (∀ c, cancelAt = some c → t < c) → w.cancelled = false →
      ((m.tick p { w with clock := t }).2.cancelled = false → ∃ u,
        m.ProceedPasses cancelAt (m.tick p { w with clock := t }).1
          (m.tick p { w with clock := t }).2 u ∧ u.cancelled = true) →
      ∃ u, m.ProceedPasses cancelAt p w u ∧ u.cancelled = true := by
    intro cancelAt p t w wake before going rest
    cases now : (m.tick p { w with clock := t }).2.cancelled with
    | true =>
      obtain ⟨u, passes, cancelled⟩ :=
        exists_resumePasses_of_tick (w := { w with clock := t }) going now
      exact ⟨u, .now wake before passes, cancelled⟩
    | false =>
      obtain ⟨u, passes, cancelled⟩ := rest now
      exact ⟨u, .later wake before passes, cancelled⟩
  fun_induction proceed m cancelAt p w with
  | case1 => cases going.symm.trans cancelled
  | case2 p w t wake _ r ih =>
    refine tick wake ?_ going fun going ↦ ih going cancelled
    rintro c ⟨⟩
  | case3 p w t wake _ c due => exact ⟨_, .cancel wake due, rfl⟩
  | case4 p w t wake _ c late r ih =>
    refine tick wake ?_ going fun going ↦ ih going cancelled
    rintro c' ⟨⟩
    exact Nat.not_le.1 late

/-! ## Runs -/

section Runs

variable (m : Machine σ ω) (plan : Plan) (input : Val) (s : σ) (o : ω) (clock : Nat)
  (cancelAfter : Option Nat)

theorem run_eq_proceed : m.run plan input s o clock cancelAfter =
    m.proceed (cancelAt clock cancelAfter) (m.begun plan input s o clock cancelAfter).1
      (m.begun plan input s o clock cancelAfter).2 :=
  rfl

theorem begun_ledger : Ledger m.executor s (m.begun plan input s o clock cancelAfter).2
    (m.begun plan input s o clock cancelAfter).1.calls := by
  refine sweep_ledger ?_
  rw [← List.append_nil (Process.calls _)]
  exact (m.starts _ _ _).ledger (.initial m s o clock cancelAfter)

theorem clock_begun : (m.begun plan input s o clock cancelAfter).2.clock = clock :=
  (m.clock_resume clock_settleStopped _ _).trans (m.clock_start _ _ _)

variable {plan input o clock cancelAfter}

theorem map_of_cancelAt {c : Nat} (at' : cancelAt clock cancelAfter = some c) :
    cancelAfter.map (clock + ·) = some c := by
  unfold cancelAt at at'
  split at at'
  · cases at'
  · exact at'

theorem le_of_cancelAt {c : Nat} (at' : cancelAt clock cancelAfter = some c) : clock ≤ c := by
  obtain ⟨d, -, rfl⟩ := Option.map_eq_some_iff.1 (map_of_cancelAt at')
  exact Nat.le_add_right _ _

/-- A run that is cancelled at a moment stops there. -/
theorem RunPasses.stopsAt {m : Machine σ ω} {s : σ} {u : World σ ω}
    (passes : m.RunPasses plan input s o clock cancelAfter u) (cancelled : u.cancelled = true) :
    u.StopsAt (m.run plan input s o clock cancelAfter) := by
  rw [run_eq_proceed]
  have starts := m.starts plan input (Machine.initial s o clock cancelAfter)
  have ledger := Ledger.initial m s o clock cancelAfter
  cases passes with
  | initial =>
    have stopping : Stopping m.executor s (Machine.initial s o clock cancelAfter)
        (m.start plan input (Machine.initial s o clock cancelAfter)).1
        (m.start plan input (Machine.initial s o clock cancelAfter)).2 [] := by
      obtain ⟨nothing, same⟩ := starts.of_cancelled cancelled
      rw [nothing, same]
      exact .refl cancelled ledger
    exact stopsAt_proceed_sweep stopping _
  | start passes => exact stopsAt_proceed_sweep (passes.stopping cancelled starts ledger) _
  | proceed passes =>
    exact passes.stopsAt cancelled (m.begun_ledger plan input s o clock cancelAfter)

/-- Whatever cancels a run does so at a moment. -/
theorem exists_runPasses {m : Machine σ ω} {s : σ}
    (cancelled : (m.run plan input s o clock cancelAfter).2.cancelled = true) :
    ∃ u, m.RunPasses plan input s o clock cancelAfter u ∧ u.cancelled = true := by
  have starts := m.starts plan input (initial s o clock cancelAfter)
  cases early : (initial s o clock cancelAfter).cancelled with
  | true => exact ⟨_, .initial, early⟩
  | false =>
    cases going : (m.begun plan input s o clock cancelAfter).2.cancelled with
    | true =>
      obtain ⟨u, passes, cancelled⟩ := starts.exists_startPasses early
        ((cancelled_sweep starts.settled _).symm.trans going)
      exact ⟨u, .start passes, cancelled⟩
    | false =>
      obtain ⟨u, passes, cancelled⟩ := m.exists_proceedPasses going cancelled
      exact ⟨u, .proceed passes, cancelled⟩

/-- A run that the caller has cancelled before it begins calls nothing. -/
theorem run_of_cancelled : m.run plan input s o clock (some 0) =
    (.error .cancelled, initial s o clock (some 0)) := by
  have starts := m.starts plan input (initial s o clock (some 0))
  obtain ⟨nothing, same⟩ := starts.of_cancelled rfl
  rw [run_eq_proceed, begun]
  dsimp only
  rw [nothing, same]
  exact m.proceed_of_quiet _ _ rfl

/-- A run ends at the instant of the caller's cancellation at the latest. -/
theorem clock_run_le {d : Nat} : (m.run plan input s o clock (some d)).2.clock ≤ clock + d := by
  cases d with
  | zero =>
    rw [run_of_cancelled]
    exact Nat.le_refl _
  | succ d =>
    refine clock_proceed_le (m.begun_ledger plan input s o clock _) ?_
    have begins := m.clock_begun plan input s o clock (some (d + 1))
    exact Nat.le_trans (Nat.le_of_eq begins) (Nat.le_add_right _ _)

end Runs

end Machine

/-- A cancellation stops a run, wherever it comes from.  Whatever cancels the caller's scope does so
at a moment of the run, be it the beginning, the end of a call or the caller's own cancellation.
From that moment on no call begins; every call that goes on is given up, whatever products it is in;
and the run ends at the same instant, in failure if there was a call to give up.  The caller's own
cancellation is not waited for longer than it takes, and if it comes before the run then the
executor is not called. -/
theorem stopsAt_of_cancelled (m : Machine σ ω) (plan : Plan) (input : Val) (s : σ) (o : ω)
    (clock : Nat) (cancelAfter : Option Nat) :
    let ended := m.run plan input s o clock cancelAfter
    (ended.2.cancelled = true →
      ∃ u, m.RunPasses plan input s o clock cancelAfter u ∧ u.cancelled = true) ∧
    (∀ u, m.RunPasses plan input s o clock cancelAfter u → u.cancelled = true →
      u.StopsAt ended) ∧
    (∀ d, cancelAfter = some d → ended.2.clock ≤ clock + d) ∧
    (cancelAfter = some 0 → ended.1 = .error .cancelled ∧ ended.2.calls = [] ∧
      ended.2.executor = s ∧ ended.2.clock = clock) := by
  intro ended
  refine ⟨Machine.exists_runPasses, fun u passes cancelled ↦ passes.stopsAt cancelled, ?_, ?_⟩
  · rintro d rfl
    exact m.clock_run_le s
  · rintro rfl
    have nothing : ended = _ := m.run_of_cancelled s
    rw [nothing]
    exact ⟨rfl, rfl, rfl, rfl⟩

/-- A task cancels the run while calls inside and outside the product around it go on, and before
the next stage has begun. -/
theorem stopsAt_of_cancelling_branch :
    let script : Script := [("a", [⟨5, false, true, .echo⟩]), ("*", [⟨20, false, false, .echo⟩])]
    let m : Machine (Table Nat) Unit := ⟨script.executor.within 30, .blind, .waitAll⟩
    ∃ p, Program.parse "next ∘ ((a × b) × c)" = .ok p ∧
      let ended := m.run p.plan .unit [] () 0 none
      ended.2.calls = [⟨"a", .unit, 0, some (5, .ok)⟩, ⟨"b", .unit, 0, some (5, .dropped)⟩,
        ⟨"c", .unit, 0, some (5, .dropped)⟩] ∧
      ∃ u, m.RunPasses p.plan .unit [] () 0 none u ∧ u.cancelled = true ∧ u.StopsAt ended := by
  intro script m
  obtain ⟨p, parsed, calls, cancelled⟩ : ∃ p, Program.parse "next ∘ ((a × b) × c)" = .ok p ∧
      (m.run p.plan .unit [] () 0 none).2.calls = [⟨"a", .unit, 0, some (5, .ok)⟩,
        ⟨"b", .unit, 0, some (5, .dropped)⟩, ⟨"c", .unit, 0, some (5, .dropped)⟩] ∧
      (m.run p.plan .unit [] () 0 none).2.cancelled = true :=
    ⟨_, Except.eq_ok_get (by decide), by decide +kernel, by decide +kernel⟩
  obtain ⟨moment, stops, -, -⟩ := stopsAt_of_cancelled m p.plan .unit [] () 0 none
  obtain ⟨u, passes, cancelled⟩ := moment cancelled
  exact ⟨p, parsed, calls, u, passes, cancelled, stops u passes cancelled⟩

end Taskflow
