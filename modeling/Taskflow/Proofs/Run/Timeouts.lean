import Taskflow.Proofs.Except
import Taskflow.Proofs.Run.Limits
import Taskflow.Proofs.Run.Outcomes
import Taskflow.Run.Script

/-!
# Runs with a limit on the time of each call

Under a limit no call lasts longer.  One that is not given up keeps its own result if it ends by
itself when its time is over at the latest, and runs out of time if it would take longer
(`CallRecord.EndsWithin`).  A run in which every call that would take longer is given up before goes
as if there were no limit (`limited_run`).
-/

namespace Taskflow

variable {σ ω : Type}

/-! ## How long a call lasts -/

/-- Whether no call in the log has lasted longer than `limit` milliseconds, nor will one that goes
on. -/
structure Lasting (e : Executor σ) (s : σ) (limit : Nat) (w : World σ ω) (cs : List Call) : Prop where
  ledger : Ledger e s w cs
  waits : ∀ c ∈ cs, w.clock ≤ c.wake
  brief : ∀ r ∈ w.calls, ∀ t o, r.ending = some (t, o) → t ≤ r.start + limit

namespace Lasting

variable {m : Machine σ ω} {s : σ} {limit : Nat} {w : World σ ω} {c : Call} {cs : List Call}

/-- A call ends when it is over at the latest. -/
theorem close {e : Executor σ} (short : ∀ task input s, (e.respond task input s).1.delay ≤ limit)
    (lasting : Lasting e s limit w (c :: cs)) (o : Outcome) :
    Lasting e s limit (w.close c.ticket o) cs where
  ledger := lasting.ledger.close o
  waits d hd := lasting.waits d (List.mem_cons_of_mem _ hd)
  brief r hr t o' ended := by
    obtain ⟨i, found⟩ := List.mem_iff_getElem?.1 hr
    rw [World.getElem?_calls_close] at found
    split at found
    next same =>
      subst same
      obtain ⟨start, opened, wake, replied⟩ := lasting.ledger.entry c List.mem_cons_self
      obtain ⟨task, input, s', responds⟩ := Executor.exists_respond replied
      have delay := responds ▸ short task input s'
      have waits := lasting.waits c List.mem_cons_self
      rw [opened] at found
      obtain rfl := Option.some.inj found
      cases ended
      dsimp only
      omega
    next => exact lasting.brief r (List.mem_of_getElem? found) t o' ended

theorem bookkeeping (short : ∀ task input s, (m.executor.respond task input s).1.delay ≤ limit)
    (s : σ) : Bookkeeping m (Lasting m.executor s limit) where
  same lasting same := by
    refine ⟨lasting.ledger.same same, ?_, ?_⟩
    · rw [same.clock]
      exact lasting.waits
    · rw [same.calls]
      exact lasting.brief
  perm lasting order :=
    ⟨lasting.ledger.perm order, fun c hc ↦ lasting.waits c (order.mem_iff.2 hc), lasting.brief⟩
  ask site input lasting := by
    refine ⟨lasting.ledger.ask site input, fun c hc ↦ ?_, fun r hr t o ended ↦ ?_⟩
    · rcases List.mem_cons.1 hc with rfl | hc
      · exact Nat.le_add_right _ _
      · exact lasting.waits c hc
    · rcases List.mem_append.1 hr with hr | hr
      · exact lasting.brief r hr t o ended
      · obtain rfl := List.mem_singleton.1 hr
        cases ended
  finish lasting _ := lasting.close short _
  giveUp lasting _ := lasting.close short _

/-- If no reply takes longer than that then no call of a run does. -/
theorem of_run (short : ∀ task input s, (m.executor.respond task input s).1.delay ≤ limit)
    (plan : Plan) (input : Val) (s : σ) (o : ω) (clock : Nat) (cancelAfter : Option Nat) :
    Lasting m.executor s limit (m.run plan input s o clock cancelAfter).2 [] := by
  refine Machine.run_keeps (bookkeeping short s) (fun lasting ↦ lasting.close short _) ?_ ?_
  · intro w cs t cancelled lasting waits
    exact ⟨lasting.ledger.advance t cancelled, waits, lasting.brief⟩
  · exact ⟨.initial m s o clock cancelAfter, nofun, nofun⟩

end Lasting

/-! ## How a call ends -/

/-- How the record of a call under a limit explains what has become of its evaluation, if `own` is
how the task itself would have replied; `asked t` says that a cancellation has been asked for by the
instant `t`. -/
inductive CallRecord.EndsWithin (asked : Nat → Prop) (limit : Nat) (r : CallRecord) (own : Reply) :
    Option (Except RunError Val) → Prop
  /-- the task has ended by itself, when its time was over at the latest -/
  | own {result} : own.delay ≤ limit → r.Over own → r.Explains asked own result →
    EndsWithin asked limit r own result
  /-- the task would have gone on when its time was over -/
  | timedOut : limit < own.delay → r.ending = some (r.start + limit, .dropped) →
    EndsWithin asked limit r own (some (.error (.task r.task r.input (.timedOut (.ofMillis limit)))))
  /-- the call was given up before it could end in either way, at that instant at the latest -/
  | givenUp {t result} : r.GivenUp own t → t ≤ r.start + limit →
    (result = none ∨ result = some (.error .cancelled) ∧ asked t) →
    EndsWithin asked limit r own result

/-- What explains how a call has ended with the reply that was cut short, if it was, tells whether
it was. -/
theorem CallRecord.Explains.endsWithin {asked : Nat → Prop} {r : CallRecord} {own : Reply}
    {limit : Nat} {result : Option (Except RunError Val)}
    (h : r.Explains asked (own.within limit) result) (closed : r.ending ≠ none) :
    r.EndsWithin asked limit own result := by
  rcases Nat.lt_or_ge limit own.delay with long | brief
  · rw [Reply.within, if_neg (Nat.not_le.2 long)] at h
    have givenUp {t : Nat} (givenUp : r.GivenUp ⟨limit, false, false,
        .error (.timedOut (.ofMillis limit)), true⟩ t) : r.GivenUp own t :=
      ⟨givenUp.ending, Nat.lt_trans givenUp.delay long,
        Nat.le_trans givenUp.due (Nat.add_le_add_left (Nat.le_of_lt long) _)⟩
    cases h with
    | waits opened => exact (closed opened).elim
    | ok result => cases result
    | failed failed =>
      cases failed.result
      exact .timedOut long failed.ending
    | withdrawn failed => cases failed.result
    | dropped dropped => exact .givenUp (givenUp dropped) dropped.due (.inl rfl)
    | cancelled dropped asked => exact .givenUp (givenUp dropped) dropped.due (.inr ⟨rfl, asked⟩)
  · rw [Reply.within, if_pos brief] at h
    have due {t : Nat} (givenUp : r.GivenUp own t) : t ≤ r.start + limit :=
      Nat.le_trans givenUp.due (Nat.add_le_add_left brief _)
    cases h with
    | waits opened => exact (closed opened).elim
    | ok result succeeded => exact .own brief (.inl succeeded) (.ok result succeeded)
    | failed failed => exact .own brief (.inr ⟨_, failed⟩) (.failed failed)
    | withdrawn failed asked => exact .own brief (.inr ⟨_, failed⟩) (.withdrawn failed asked)
    | dropped dropped => exact .givenUp dropped (due dropped) (.inl rfl)
    | cancelled dropped asked => exact .givenUp dropped (due dropped) (.inr ⟨rfl, asked⟩)

/-- Whatever is asked of a program, its run under a limit keeps to it.  The reply that a task itself
would have given is the one that its executor gives without the limit when it is asked for the same
calls.  Without the limit the run is the same if every call that takes longer is given up there before
its time is over. -/
theorem limited_run {text : String} {p : Program} (parsed : Program.parse text = .ok p)
    (e : Executor σ) (limit : Nat) (a : Observer ω) (policy : Policy) (input : Val) (s : σ) (o : ω)
    (clock : Nat) (cancelAfter : Option Nat) :
    let limited : Machine σ ω := ⟨e.within limit, a, policy⟩
    let alone : Machine σ ω := ⟨e, a, policy⟩
    let ended := limited.run p.plan input s o clock cancelAfter
    let h := limited.history p.plan input s o clock cancelAfter
    h.Tells p ended ∧
    (∀ r ∈ ended.2.calls, ∃ t outcome, r.ending = some (t, outcome) ∧ t ≤ r.start + limit) ∧
    (a.Accepts → ∀ visit site i, .task visit site (some i) ∈ h.parts → ∃ r own,
      visit.Entered e s ended.2 site i r own ∧
        r.EndsWithin (Requested (e.within limit) s (cancelAfter.map (clock + ·)) ended.2) limit own
          visit.result) ∧
    ((alone.run p.plan input s o clock cancelAfter).2.Spared e s limit →
      ended = alone.run p.plan input s o clock cancelAfter) := by
  intro limited alone ended h
  have short (task : String) (input : Val) (s : σ) :
      ((e.within limit).respond task input s).1.delay ≤ limit := by
    rw [Executor.respond_within]
    exact Reply.delay_within_le limit _
  have lasting := Lasting.of_run (m := limited) short p.plan input s o clock cancelAfter
  refine ⟨History.tells_of_run parsed limited input s o clock cancelAfter, fun r hr ↦ ?_,
    fun accepts visit site i part ↦ ?_, fun spared ↦ ?_⟩
  · obtain ⟨⟨t, outcome⟩, ending⟩ := Option.isSome_iff_exists.1 (lasting.ledger.ending_isSome hr)
    exact ⟨t, outcome, ending, lasting.brief r hr t outcome ending⟩
  · have accounts := History.Accounts.of_run (m := limited) accepts s p.plan input o clock cancelAfter
    obtain ⟨r, reply, explains⟩ := accounts.explained _ part
    have replied := explains.replied
    rw [Executor.replies_within, List.getElem?_map] at replied
    obtain ⟨own, replied', rfl⟩ := Option.map_eq_some_iff.1 replied
    have closed : r.ending ≠ none := Option.isSome_iff_ne_none.1
      (lasting.ledger.ending_isSome (List.mem_of_getElem? explains.record))
    exact ⟨r, own, ⟨explains.record, replied', explains.task, explains.input, explains.start⟩,
      explains.result.endsWithin closed⟩
  · exact Machine.run_within (m := alone) spared

/-- One task that takes longer beside one that fails before the time is over, and then not before. -/
theorem limited_run_of_slow_beside_broken :
    let text := "slow × broken"
    let script : Script :=
      [("slow", [⟨10, false, false, .echo⟩]), ("broken", [⟨3, false, false, .fail "no"⟩])]
    let alone : Machine (Table Nat) Unit := ⟨script.executor, .blind, .failFast⟩
    let limited (limit : Nat) : Machine (Table Nat) Unit :=
      ⟨script.executor.within limit, .blind, .failFast⟩
    ∃ p, Program.parse text = .ok p ∧
      (limited 5).run p.plan .unit [] () 0 none = alone.run p.plan .unit [] () 0 none ∧
      ((limited 2).run p.plan .unit [] () 0 none).1 =
        .error (.task "slow" .unit (.timedOut (.ofMillis 2))) ∧
      (∀ r ∈ ((limited 2).run p.plan .unit [] () 0 none).2.calls, ∃ t outcome,
        r.ending = some (t, outcome) ∧ t ≤ r.start + 2) := by
  intro text script alone limited
  have parsed := Except.eq_ok_get (x := Program.parse text) (by decide)
  have runs (limit : Nat) :=
    limited_run parsed script.executor limit .blind .failFast .unit [] () 0 none
  refine ⟨_, parsed, (runs 5).2.2.2 ?_, ?_, (runs 2).2.1⟩
  · unfold World.Spared
    decide +kernel
  · decide +kernel

/-- What happens at the very instant at which a call runs out of time.  A call that is given up then
in the run without the limit may run out of time before under it, so that the runs differ although no
call lasts longer in the first one.  A call that is given up then under the limit does not run out of
time; this is shown for one that is given up by a call to its left, which is over at the same instant
and takes effect before it, since that is the order in which `Machine.resume` comes to the two.  And
a task can say by itself that it has run out of just this time. -/
theorem limited_run_at_limit :
    let run (p : Program) (e : Executor (Table Nat)) :=
      Machine.run ⟨e, .blind, .failFast⟩ p.plan .unit [] () 0 none
    (∃ p, Program.parse "slow × broken" = .ok p ∧
      let script : Script :=
        [("slow", [⟨10, false, false, .echo⟩]), ("broken", [⟨0, false, false, .fail "no"⟩])]
      let alone := run p script.executor
      let limited := run p (script.executor.within 0)
      alone.2.calls = [⟨"slow", .unit, 0, some (0, .dropped)⟩,
        ⟨"broken", .unit, 0, some (0, .failed)⟩] ∧
      alone.1 = .error (.task "broken" .unit (.failed "no")) ∧
      limited.2.calls = [⟨"slow", .unit, 0, some (0, .dropped)⟩] ∧
      limited.1 = .error (.task "slow" .unit (.timedOut (.ofMillis 0)))) ∧
    (∃ p, Program.parse "stop × slow" = .ok p ∧
      let script : Script :=
        [("stop", [⟨5, true, false, .echo⟩]), ("slow", [⟨10, false, false, .echo⟩])]
      let limited := run p (script.executor.within 5)
      limited.2.calls = [⟨"stop", .unit, 0, some (5, .ok)⟩, ⟨"slow", .unit, 0, some (5, .dropped)⟩] ∧
      limited.1 = .error .cancelled) ∧
    ∃ p, Program.parse "hasty" = .ok p ∧
      let script : Script := [("hasty", [⟨1, false, false, .timedOut (.ofMillis 5)⟩])]
      let limited := run p (script.executor.within 5)
      limited.2.calls = [⟨"hasty", .unit, 0, some (1, .failed)⟩] ∧
      limited.1 = .error (.task "hasty" .unit (.timedOut (.ofMillis 5))) := by
  intro run
  refine ⟨⟨_, Except.eq_ok_get (by decide), ?_⟩, ⟨_, Except.eq_ok_get (by decide), ?_⟩,
    ⟨_, Except.eq_ok_get (by decide), ?_⟩⟩
  · decide +kernel
  · decide +kernel
  · decide +kernel

end Taskflow
