import Taskflow.Proofs.Except
import Taskflow.Proofs.Run.Confinement
import Taskflow.Proofs.Run.Outcomes
import Taskflow.Run.Script

/-!
# Where the result of a run comes from

A run that nobody watches neither swallows failures nor makes them up (`Provenance`).  If it ends in
a value then all its calls have gone well; if its error blames a task then the log has a call of this
task with this input that has failed in this way; and it is cancelled if this has been asked for.  A
task that stops as if it were cancelled, while nobody has asked for that, is to blame like any other.
-/

namespace Taskflow

variable {σ : Type}

/-! ## Calls that are cut short -/

namespace Executor

/-- Whether what is cut short has run out of time. -/
def Frank (e : Executor σ) : Prop := ∀ task input s,
  (e.respond task input s).1.cutShort = true →
    ∃ limit, (e.respond task input s).1.result = .error (.timedOut limit)

theorem Frank.within {e : Executor σ} (frank : e.Frank) (limit : Nat) : (e.within limit).Frank := by
  intro task input s
  unfold Executor.within
  dsimp only
  split
  · exact frank task input s
  · exact fun _ ↦ ⟨_, rfl⟩

theorem Frank.cutShort_eq {e : Executor σ} (frank : e.Frank) {s : σ} {asked : List (String × Val)}
    {i : Nat} {reply : Reply} (replied : (e.replies s asked)[i]? = some reply)
    (other : ∀ limit, reply.result ≠ .error (.timedOut limit)) : reply.cutShort = false := by
  obtain ⟨task, input, s', rfl⟩ := exists_respond replied
  refine Bool.eq_false_iff.2 fun cut ↦ ?_
  obtain ⟨limit, timedOut⟩ := frank task input s' cut
  exact other limit timedOut

end Executor

/-- A call that has failed by itself makes the evaluation fail, or a cancellation has been asked for. -/
theorem CallRecord.Explains.of_failed {asked : Nat → Prop} {r : CallRecord} {reply : Reply}
    {result : Option (Except RunError Val)} {f : TaskFailure} (h : r.Explains asked reply result)
    (failed : r.Failed reply f) (whole : reply.cutShort = false) :
    result = some (.error (.task r.task r.input f)) ∨ asked (r.due reply) := by
  have ending := failed.ending
  rw [whole, if_neg (by simp)] at ending
  cases h with
  | waits opened => cases opened.symm.trans ending
  | ok result => cases result.symm.trans failed.result
  | failed failed' =>
    cases failed.result.symm.trans failed'.result
    exact .inl rfl
  | withdrawn _ asked => exact .inr asked
  | dropped givenUp | cancelled givenUp => cases givenUp.ending.symm.trans ending

/-- Scripted tasks are never cut short. -/
theorem Script.frank_executor (script : Script) : script.executor.Frank := by
  intro task input counts cut
  dsimp only [Script.executor] at cut
  split at cut <;> cases cut

/-- The tasks of a plan that resolves a node are not functors. -/
theorem Program.Resolves.confined_tasks {p : Program} (wf : p.WellFormed) {n : Node} {plan : Plan}
    (h : p.Resolves n plan) : plan.Confined (p.isFunctor · = false) := by
  induction h with
  | task none =>
    rw [Plan.Confined, wf.isFunctor_eq, none]
    rfl
  | named _ _ ih => exact ih
  | composition _ _ ihOuter ihInner => exact ⟨ihOuter, ihInner⟩
  | product _ _ ihLeft ihRight => exact ⟨ihLeft, ihRight⟩
  | functor _ ih => exact ih

/-! ## The result of a run -/

/-- Whether the result of a run, whose history is `h`, has a cause in its log. -/
structure Provenance (p : Program) (e : Executor σ) (s : σ) (cancelAt : Option Nat)
    (h : History σ Unit) (ended : Except RunError Val × World σ Unit) : Prop where
  ok : ∀ v, ended.1 = .ok v → ∀ r ∈ ended.2.calls, ∃ t, r.ending = some (t, .ok)
  task : ∀ name input f, ended.1 = .error (.task name input f) → p.isFunctor name = false ∧
    ∃ i r reply, Recorded e s ended.2 i r reply ∧ r.task = name ∧ r.input = input ∧ r.Failed reply f
  cancelled : ended.1 = .error .cancelled → Requested e s cancelAt ended.2 ended.2.clock
  other : ∀ v, ended.1 ≠ .error (.violation v)
  history : h.result? = some ended.1 ∧ h.tickets.Perm (List.range ended.2.calls.length)
  /-- a task that stops unasked is to blame for it -/
  unasked : ∀ visit site i r reply, .task visit site (some i) ∈ h.parts →
    visit.Entered e s ended.2 site i r reply → r.Failed reply .cancelled →
    ¬Requested e s cancelAt ended.2 (r.due reply) →
    visit.result = some (.error (.task site.name visit.input .cancelled))

namespace History.Accounts

variable {m : Machine σ Unit} {s : σ} {cancelAt : Option Nat} {plan : Plan} {h : History σ Unit}
  {w : World σ Unit}

/-- If a run ends in a value then every call has yielded one. -/
theorem ending_of_ok (frank : m.executor.Frank) {v : Val}
    (accounts : h.Accounts m s cancelAt plan (.done (.ok v)) w) {r : CallRecord} (hr : r ∈ w.calls) :
    ∃ t, r.ending = some (t, .ok) := by
  obtain ⟨i, found⟩ := List.mem_iff_getElem?.1 hr
  have mem : i ∈ h.tickets := by
    rw [accounts.tickets.mem_iff, List.mem_range]
    exact (List.getElem?_eq_some_iff.1 found).1
  obtain ⟨visit, site, part⟩ := exists_task_of_mem_tickets mem
  obtain ⟨x, ok⟩ := accounts.composed.ok_of_composed accounts.tracks.result?_eq _ part
  obtain ⟨r', reply, explains⟩ := accounts.explained _ part
  obtain rfl := Option.some.inj (explains.record.symm.trans found)
  have explains' := explains.result
  rw [show visit.result = some (.ok x) from ok] at explains'
  cases explains' with
  | ok result succeeded =>
    have whole := frank.cutShort_eq explains.replied fun limit ↦ by simp [result]
    have ending := succeeded.ending
    rw [whole, if_neg (by simp)] at ending
    exact ⟨_, ending⟩

/-- If a run ends in an error then a task has, and its record explains it. -/
theorem exists_task_of_error {error : RunError}
    (accounts : h.Accounts m s cancelAt plan (.done (.error error)) w) :
    ∃ visit site ticket, .task visit site ticket ∈ h.parts ∧ visit.result = some (.error error) ∧
      (History.task visit site ticket).Explained m.executor s cancelAt w := by
  obtain ⟨visit, site, ticket, part, result⟩ :=
    accounts.composed.error_of_composed accounts.tracks.result?_eq
  exact ⟨visit, site, ticket, part, result, accounts.explained _ part⟩

/-- The task that an error blames has failed. -/
theorem failed_of_error {name : String} {input : Val} {f : TaskFailure}
    (accounts : h.Accounts m s cancelAt plan (.done (.error (.task name input f))) w) :
    ∃ i r reply, Recorded m.executor s w i r reply ∧ r.task = name ∧ r.input = input ∧
      r.Failed reply f := by
  obtain ⟨visit, site, ticket, -, result, explained⟩ := accounts.exists_task_of_error
  cases ticket with
  | none => cases result.symm.trans explained.1
  | some i =>
    obtain ⟨r, reply, explains⟩ := explained
    have explains' := explains.result
    rw [result] at explains'
    cases explains' with
    | failed failed => exact ⟨i, r, reply, ⟨explains.record, explains.replied⟩, rfl, rfl, failed⟩

/-- A run that ends as cancelled was to be cancelled. -/
theorem requested_of_error (accounts : h.Accounts m s cancelAt plan (.done (.error .cancelled)) w) :
    Requested m.executor s cancelAt w w.clock := by
  obtain ⟨visit, site, ticket, part, result, explained⟩ := accounts.exists_task_of_error
  cases ticket with
  | none =>
    have begun := ((accounts.sound _ part).logged visit rfl).precedes.clock
    exact explained.2.later (.refl w) begun
  | some i =>
    obtain ⟨r, reply, explains⟩ := explained
    have past := (accounts.annals.past r (List.mem_of_getElem? explains.record)).2
    have explains' := explains.result
    rw [result] at explains'
    cases explains' with
    | withdrawn failed asked => exact asked.later (.refl w) (past _ _ failed.ending).2
    | cancelled givenUp asked => exact asked.later (.refl w) (past _ _ givenUp.ending).2

/-- No value is refused. -/
theorem not_violation {v : Violation}
    (accounts : h.Accounts m s cancelAt plan (.done (.error (.violation v))) w) : False := by
  obtain ⟨visit, site, ticket, -, result, explained⟩ := accounts.exists_task_of_error
  cases ticket with
  | none => cases result.symm.trans explained.1
  | some i =>
    obtain ⟨r, reply, explains⟩ := explained
    have explains' := explains.result
    rw [result] at explains'
    cases explains'

/-- What a task answers that stops unasked. -/
theorem result_of_unasked (frank : m.executor.Frank) {result : Process}
    (accounts : h.Accounts m s cancelAt plan result w) {visit : Visit σ Unit} {site : Site} {i : Nat}
    {r : CallRecord} {reply : Reply} (part : .task visit site (some i) ∈ h.parts)
    (entered : visit.Entered m.executor s w site i r reply) (failed : r.Failed reply .cancelled)
    (unasked : ¬Requested m.executor s cancelAt w (r.due reply)) :
    visit.result = some (.error (.task site.name visit.input .cancelled)) := by
  obtain ⟨r', reply', explains⟩ := accounts.explained _ part
  obtain rfl := Option.some.inj (entered.record.symm.trans explains.record)
  obtain rfl := Option.some.inj (entered.replied.symm.trans explains.replied)
  have whole := frank.cutShort_eq entered.replied fun limit ↦ by simp [failed.result]
  rw [← entered.task, ← entered.input]
  exact (explains.result.of_failed failed whole).resolve_right unasked

end History.Accounts

/-- The run of a node of a parsed program, with scripted tasks and perhaps a limit on the time of each
call, under either policy and whenever it is cancelled, has its result from its log. -/
theorem provenance_of_run {text : String} {p : Program} (parsed : Program.parse text = .ok p)
    (n : Node) (script : Script) (limit : Option Nat) (policy : Policy) (input : Val)
    (s : Table Nat) (clock : Nat) (cancelAfter : Option Nat) :
    let e := limit.elim script.executor script.executor.within
    let m : Machine (Table Nat) Unit := ⟨e, .blind, policy⟩
    Provenance p e s (cancelAfter.map (clock + ·))
      (m.history (p.planOf n) input s () clock cancelAfter)
      (m.run (p.planOf n) input s () clock cancelAfter) := by
  intro e m
  have frank : e.Frank := by
    cases limit with
    | none => exact script.frank_executor
    | some limit => exact script.frank_executor.within limit
  have wf := Program.wellFormed_of_parse parsed
  have accounts := History.Accounts.of_run (m := m) Observer.accepts_blind s (p.planOf n) input ()
    clock cancelAfter
  have tasks := (wf.resolves_planOf n).confined_tasks wf
  have confines : m.Confines (p.isFunctor · = false) fun _ ↦ True :=
    ⟨trivial, fun _ _ ↦ trivial, fun _ ↦ trivial⟩
  have confined := (Machine.run_confined confines tasks input s () clock cancelAfter).2
  generalize m.history (p.planOf n) input s () clock cancelAfter = h at accounts
  generalize m.run (p.planOf n) input s () clock cancelAfter = ended at accounts confined
  obtain ⟨result, w⟩ := ended
  constructor
  · rintro v rfl r hr
    exact accounts.ending_of_ok frank hr
  · rintro name input f rfl
    obtain ⟨i, r, reply, recorded, rfl, rfl, failed⟩ := accounts.failed_of_error
    refine ⟨?_, i, r, reply, recorded, rfl, rfl, failed⟩
    exact confined _ (List.mem_map_of_mem (List.mem_of_getElem? recorded.record))
  · rintro rfl
    exact accounts.requested_of_error
  · rintro v rfl
    exact accounts.not_violation
  · exact ⟨accounts.tracks.result?_eq, accounts.tickets⟩
  · intro visit site i r reply part entered failed unasked
    exact accounts.result_of_unasked frank part entered failed unasked

/-- A task in a functor that stops unasked, beside one that takes too long. -/
theorem provenance_of_run_of_timeout :
    let text := "f = quit\n(f × slow) ∘ go"
    let script : Script := [("go", [.echo]), ("quit", [⟨3, false, false, .cancelled⟩]),
      ("slow", [⟨80, false, false, .echo⟩])]
    let e := script.executor.within 50
    let m : Machine (Table Nat) Unit := ⟨e, .blind, .waitAll⟩
    ∃ p, Program.parse text = .ok p ∧
      Provenance p e [] none (m.history p.plan .unit [] () 0 none) (m.run p.plan .unit [] () 0 none) ∧
      (m.run p.plan .unit [] () 0 none).1 = .error (.task "quit" .unit .cancelled) := by
  intro text script e m
  have parsed := Except.eq_ok_get (x := Program.parse text) (by decide)
  refine ⟨_, parsed, provenance_of_run parsed _ script (some 50) .waitAll .unit [] 0 none, ?_⟩
  decide +kernel

end Taskflow
