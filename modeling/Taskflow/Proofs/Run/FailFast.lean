import Taskflow.Grammar.Parse
import Taskflow.Proofs.Except
import Taskflow.Proofs.Run.Ledger
import Taskflow.Proofs.Run.Quiet

/-!
# A failure stops the whole run

Where products fail fast and nothing is cancelled, a run is *calm* until a call fails: every call
that has ended has yielded a value, at the instant at which it was due.  The failure passes through
everything around it in that same instant.  The products on the way give up their other branches,
nothing begins any more, and what is left is the error of the one call that failed (`Goes`).

If moreover no two calls that take time are due at the same instant, then the log tells which call
that was: the only one that ended in failure (`stoppedBy_of_failed`).
-/

namespace Taskflow

variable {σ : Type}

/-! ## The log -/

/-- Whether `r` is the entry number `i` of the log and `reply` is what the executor replied. -/
structure Recorded (e : Executor σ) (s : σ) (w : World σ Unit) (i : Nat) (r : CallRecord)
    (reply : Reply) : Prop where
  record : w.calls[i]? = some r
  replied : (e.replies s w.made)[i]? = some reply

namespace CallRecord

/-- The instant at which a call is over if it is not given up. -/
def due (r : CallRecord) (reply : Reply) : Nat := r.start + reply.delay

/-- The call has yielded a value when it was due; one that was cut short has not come to an end of
its own. -/
structure Succeeded (r : CallRecord) (reply : Reply) : Prop where
  result : ∃ v, reply.result = .ok v
  ending : r.ending = some (r.due reply, if reply.cutShort then .dropped else .ok)

/-- The call has failed when it was due. -/
structure Failed (r : CallRecord) (reply : Reply) (failure : TaskFailure) : Prop where
  result : reply.result = .error failure
  ending : r.ending = some (r.due reply, if reply.cutShort then .dropped else .failed)

theorem Failed.not_succeeded {r : CallRecord} {reply : Reply} {failure : TaskFailure}
    (failed : r.Failed reply failure) : ¬ r.Succeeded reply := by
  rintro ⟨⟨v, ok⟩, -⟩
  cases ok.symm.trans failed.result

/-- The call has been given up at the instant `t`, while it went on. -/
structure GivenUp (r : CallRecord) (reply : Reply) (t : Nat) : Prop where
  ending : r.ending = some (t, .dropped)
  delay : 0 < reply.delay
  due : t ≤ r.due reply

end CallRecord

open CallRecord

namespace Recorded

variable {e : Executor σ} {s : σ} {w w' : World σ Unit} {i j : Nat} {r r' : CallRecord}
  {reply reply' : Reply}

theorem of_sameLog (h : Recorded e s w' i r reply) (same : w.SameLog w') :
    Recorded e s w i r reply := by
  obtain ⟨record, replied⟩ := h
  rw [same.calls] at record
  rw [same.made_eq] at replied
  exact ⟨record, replied⟩

/-- Every call in the log has been replied to. -/
theorem of_getElem? (found : w.calls[i]? = some r) : ∃ reply, Recorded e s w i r reply := by
  have less := (List.getElem?_eq_some_iff.1 found).1
  exact ⟨_, found, List.getElem?_eq_getElem (by simpa using less)⟩

/-- There is one record of a call. -/
theorem unique (h : Recorded e s w i r reply) (h' : Recorded e s w i r' reply') :
    r = r' ∧ reply = reply' :=
  ⟨Option.some.inj (h.record.symm.trans h'.record),
    Option.some.inj (h.replied.symm.trans h'.replied)⟩

/-- Asking for a call adds its record. -/
theorem of_asked {m : Machine σ Unit} {cs : List Call} (ledger : Ledger m.executor s w cs)
    {site : Site} {v : Val} (h : Recorded m.executor s (m.asked site v w) i r reply) :
    Recorded m.executor s w i r reply ∨
      i = w.calls.length ∧ r = ⟨site.name, v, w.clock, none⟩ ∧
        reply = (m.called site v w).reply := by
  obtain ⟨record, replied⟩ := h
  rw [m.made_asked, Executor.replies_concat, ← ledger.executor] at replied
  rw [Machine.asked] at record
  by_cases less : i < w.calls.length
  · rw [List.getElem?_append_left less] at record
    rw [List.getElem?_append_left (by simpa using less)] at replied
    exact .inl ⟨record, replied⟩
  · rw [List.getElem?_append_right (by omega), List.getElem?_singleton] at record
    rw [List.getElem?_append_right (by simp; omega), List.getElem?_singleton] at replied
    split at record
    next zero =>
      rw [if_pos (by simpa using zero)] at replied
      cases record
      cases replied
      exact .inr ⟨by omega, rfl, rfl⟩
    next => cases record

/-- Ending a call leaves the other records alone. -/
theorem close_of_ne (h : Recorded e s w i r reply) {n : Nat} (differ : n ≠ i) (o : Outcome) :
    Recorded e s (w.close n o) i r reply where
  record := by
    rw [World.getElem?_calls_close, if_neg differ]
    exact h.record
  replied := by
    rw [World.made_close]
    exact h.replied

/-- The record of a call that has just ended. -/
theorem close_self (h : Recorded e s w i r reply) (o : Outcome) :
    Recorded e s (w.close i o) i { r with ending := some (w.clock, o) } reply where
  record := by
    rw [World.getElem?_calls_close, if_pos rfl, h.record]
    rfl
  replied := by
    rw [World.made_close]
    exact h.replied

/-- Ending a call changes its own record alone. -/
theorem of_close {n : Nat} {o : Outcome} (h : Recorded e s (w.close n o) i r reply) :
    n ≠ i ∧ Recorded e s w i r reply ∨
      n = i ∧ ∃ r', Recorded e s w i r' reply ∧ r = { r' with ending := some (w.clock, o) } := by
  obtain ⟨record, replied⟩ := h
  rw [World.made_close] at replied
  rw [World.getElem?_calls_close] at record
  split at record
  next same =>
    obtain ⟨r', found, rfl⟩ := Option.map_eq_some_iff.1 record
    exact .inr ⟨same, r', ⟨found, replied⟩, rfl⟩
  next differ => exact .inl ⟨differ, record, replied⟩

/-- The record of a call that goes on. -/
theorem of_mem {cs : List Call} (ledger : Ledger e s w cs) {c : Call} (hc : c ∈ cs) :
    ∃ r, Recorded e s w c.ticket r c.reply ∧ r.task = c.site.name ∧ r.input = c.input ∧
      r.ending = none ∧ r.due c.reply = c.wake := by
  obtain ⟨start, record, wake, replied⟩ := ledger.entry c hc
  exact ⟨_, ⟨record, replied⟩, rfl, rfl, rfl, wake.symm⟩

end Recorded

/-! ## Calm and failing runs -/

section States

variable (e : Executor σ) (s : σ) (began : Nat)

/-- Whether something can begin at the present instant of a run that began at `began`: it is the
first instant, or a call has just yielded a value. -/
def Stirred (w : World σ Unit) : Prop :=
  w.clock = began ∨ ∃ i r reply, Recorded e s w i r reply ∧ r.Succeeded reply ∧ 0 < reply.delay ∧
    r.due reply = w.clock

/-- What holds in calm and in failure: the calls in `cs` go on, and nothing begins but at a stirred
instant. -/
structure Timed (w : World σ Unit) (cs : List Call) : Prop where
  ledger : Ledger e s w cs
  since : began ≤ w.clock
  starts : ∀ r ∈ w.calls, began ≤ r.start ∧ r.start ≤ w.clock
  stirred : ∀ r ∈ w.calls, r.start = w.clock → Stirred e s began w

/-- Whether no call has failed, while those in `cs` go on. -/
structure Calm (w : World σ Unit) (cs : List Call) : Prop extends Timed e s began w cs where
  ended : ∀ {i r reply}, Recorded e s w i r reply → r.ending ≠ none →
    r.Succeeded reply ∧ r.due reply ≤ w.clock

/-- Whether the call number `k` has failed at the present instant and nothing has begun since, while
those in `cs` have not been given up yet. -/
structure Failing (w : World σ Unit) (cs : List Call) (k : Nat) (r : CallRecord) (reply : Reply)
    (failure : TaskFailure) : Prop extends Timed e s began w cs where
  recorded : Recorded e s w k r reply
  failed : r.Failed reply failure
  now : r.due reply = w.clock
  /-- a call that takes no time is the last one to begin -/
  last : reply.delay = 0 → k + 1 = w.calls.length
  others : ∀ {i r' reply'}, Recorded e s w i r' reply' → i ≠ k → r'.ending ≠ none →
    r'.Succeeded reply' ∧ r'.due reply' ≤ w.clock ∨ r'.GivenUp reply' w.clock

end States

variable {e : Executor σ} {s : σ} {began : Nat} {w w' : World σ Unit} {cs : List Call} {c : Call}
  {k : Nat} {r : CallRecord} {reply : Reply} {failure : TaskFailure}

theorem Stirred.same (stirred : Stirred e s began w) (same : w.SameLog w') :
    Stirred e s began w' := by
  rw [Stirred, same.clock]
  refine stirred.imp_right ?_
  rintro ⟨i, r, reply, recorded, rest⟩
  have back : w'.SameLog w := ⟨same.executor.symm, same.clock.symm, same.calls.symm⟩
  exact ⟨i, r, reply, recorded.of_sameLog back, rest⟩

/-- Nothing that has ended ends in another way later. -/
theorem Stirred.close (stirred : Stirred e s began w) (ledger : Ledger e s w cs) (hc : c ∈ cs)
    (o : Outcome) : Stirred e s began (w.close c.ticket o) := by
  refine stirred.imp_right ?_
  rintro ⟨i, r, reply, recorded, succeeded, rest⟩
  refine ⟨i, r, reply, recorded.close_of_ne ?_ o, succeeded, rest⟩
  rintro rfl
  obtain ⟨r', recorded', -, -, opened, -⟩ := Recorded.of_mem ledger hc
  obtain ⟨rfl, -⟩ := recorded.unique recorded'
  cases opened.symm.trans succeeded.ending

theorem Stirred.ask {m : Machine σ Unit} (stirred : Stirred m.executor s began w) (site : Site)
    (v : Val) : Stirred m.executor s began (m.asked site v w) := by
  refine stirred.imp_right ?_
  rintro ⟨i, r, reply, recorded, rest⟩
  refine ⟨i, r, reply, ⟨?_, ?_⟩, rest⟩
  · have less := (List.getElem?_eq_some_iff.1 recorded.record).1
    rw [Machine.asked, List.getElem?_append_left less]
    exact recorded.record
  · have less := (List.getElem?_eq_some_iff.1 recorded.replied).1
    rw [m.made_asked, Executor.replies_concat, List.getElem?_append_left less]
    exact recorded.replied

/-- Whatever a run does to its log, it stays stirred. -/
theorem bookkeeping_stirred (m : Machine σ Unit) (s : σ) (began : Nat) :
    Bookkeeping m fun w cs ↦ Ledger m.executor s w cs ∧ Stirred m.executor s began w where
  same := fun ⟨ledger, stirred⟩ same ↦ ⟨ledger.same same, stirred.same same⟩
  perm := fun ⟨ledger, stirred⟩ order ↦ ⟨ledger.perm order, stirred⟩
  ask site v := fun ⟨ledger, stirred⟩ ↦ ⟨ledger.ask site v, stirred.ask site v⟩
  finish := fun ⟨ledger, stirred⟩ _ ↦ ⟨ledger.close _, stirred.close ledger List.mem_cons_self _⟩
  giveUp := fun ⟨ledger, stirred⟩ _ ↦ ⟨ledger.close _, stirred.close ledger List.mem_cons_self _⟩

namespace Timed

theorem same (timed : Timed e s began w cs) (same : w.SameLog w') : Timed e s began w' cs where
  ledger := timed.ledger.same same
  since := same.clock ▸ timed.since
  starts := by
    rw [same.calls, same.clock]
    exact timed.starts
  stirred := by
    rw [same.calls, same.clock]
    exact fun r hr now ↦ (timed.stirred r hr now).same same

theorem perm {cs' : List Call} (timed : Timed e s began w cs) (order : cs.Perm cs') :
    Timed e s began w cs' :=
  ⟨timed.ledger.perm order, timed.since, timed.starts, timed.stirred⟩

theorem ask {m : Machine σ Unit} (timed : Timed m.executor s began w cs)
    (stirred : Stirred m.executor s began w) (site : Site) (v : Val) :
    Timed m.executor s began (m.asked site v w) (m.called site v w :: cs) where
  ledger := timed.ledger.ask site v
  since := timed.since
  starts r hr := by
    rcases List.mem_append.1 hr with hr | hr
    · exact timed.starts r hr
    · obtain rfl := List.mem_singleton.1 hr
      exact ⟨timed.since, Nat.le_refl _⟩
  stirred _ _ _ := stirred.ask site v

theorem close (timed : Timed e s began w (c :: cs)) (o : Outcome) :
    Timed e s began (w.close c.ticket o) cs := by
  have before : ∀ r ∈ (w.close c.ticket o).calls, ∃ r' ∈ w.calls, r.start = r'.start := by
    intro r hr
    obtain ⟨i, found⟩ := List.mem_iff_getElem?.1 hr
    rw [World.getElem?_calls_close] at found
    split at found
    · obtain ⟨r', found', rfl⟩ := Option.map_eq_some_iff.1 found
      exact ⟨r', List.mem_of_getElem? found', rfl⟩
    · exact ⟨r, List.mem_of_getElem? found, rfl⟩
  refine ⟨timed.ledger.close o, timed.since, ?_, ?_⟩
  · intro r hr
    obtain ⟨r', hr', same⟩ := before r hr
    rw [same]
    exact timed.starts r' hr'
  · intro r hr now
    obtain ⟨r', hr', same⟩ := before r hr
    exact (timed.stirred r' hr' (same ▸ now)).close timed.ledger List.mem_cons_self o

end Timed

namespace Calm

theorem same (calm : Calm e s began w cs) (same : w.SameLog w') : Calm e s began w' cs where
  toTimed := calm.toTimed.same same
  ended recorded ended := by
    rw [same.clock]
    exact calm.ended (recorded.of_sameLog same) ended

theorem perm {cs' : List Call} (calm : Calm e s began w cs) (order : cs.Perm cs') :
    Calm e s began w cs' :=
  ⟨calm.toTimed.perm order, calm.ended⟩

/-- A call begins. -/
theorem ask {m : Machine σ Unit} (calm : Calm m.executor s began w cs)
    (stirred : Stirred m.executor s began w) (site : Site) (v : Val) :
    Calm m.executor s began (m.asked site v w) (m.called site v w :: cs) where
  toTimed := calm.toTimed.ask stirred site v
  ended recorded ended := by
    rcases recorded.of_asked calm.ledger with recorded | ⟨-, rfl, -⟩
    · exact calm.ended recorded ended
    · exact (ended rfl).elim

/-- A call that is due yields a value, and one that took time makes room for others to begin. -/
theorem succeed (calm : Calm e s began w (c :: cs)) (due : c.wake = w.clock) {v : Val}
    (ok : c.reply.result = .ok v) :
    Calm e s began (w.close c.ticket c.outcome) cs ∧
      (0 < c.reply.delay → Stirred e s began (w.close c.ticket c.outcome)) := by
  obtain ⟨r, recorded, -, -, -, wake⟩ := Recorded.of_mem calm.ledger List.mem_cons_self
  have now : r.due c.reply = w.clock := wake.trans due
  have closed : Recorded e s (w.close c.ticket c.outcome) c.ticket
      { r with ending := some (w.clock, c.outcome) } c.reply := recorded.close_self _
  have succeeded : Succeeded { r with ending := some (w.clock, c.outcome) } c.reply := by
    have outcome : c.outcome = if c.reply.cutShort then .dropped else .ok := by
      simp [Call.outcome, ok]
    refine ⟨⟨v, ok⟩, ?_⟩
    rw [← outcome]
    exact congrArg (fun t ↦ some (t, c.outcome)) now.symm
  refine ⟨⟨calm.toTimed.close _, ?_⟩, fun delay ↦ .inr ⟨_, _, _, closed, succeeded, delay, now⟩⟩
  intro i r' reply' recorded' ended
  rcases recorded'.of_close with ⟨-, found⟩ | ⟨rfl, -⟩
  · exact calm.ended found ended
  · obtain ⟨rfl, rfl⟩ := recorded'.unique closed
    exact ⟨succeeded, Nat.le_of_eq now⟩

/-- A call that is due fails. -/
theorem fail (calm : Calm e s began w (c :: cs)) (due : c.wake = w.clock)
    (error : c.reply.result = .error failure)
    (last : c.reply.delay = 0 → c.ticket + 1 = w.calls.length) :
    ∃ r, r.task = c.site.name ∧ r.input = c.input ∧
      Failing e s began (w.close c.ticket c.outcome) cs c.ticket r c.reply failure := by
  obtain ⟨r, recorded, task, input, -, wake⟩ := Recorded.of_mem calm.ledger List.mem_cons_self
  have now : r.due c.reply = w.clock := wake.trans due
  refine ⟨{ r with ending := some (w.clock, c.outcome) }, task, input, calm.toTimed.close _,
    recorded.close_self _, ⟨error, ?_⟩, now, ?_, ?_⟩
  · have outcome : c.outcome = if c.reply.cutShort then .dropped else .failed := by
      simp [Call.outcome, error]
    rw [← outcome]
    exact congrArg (fun t ↦ some (t, c.outcome)) now.symm
  · intro zero
    rw [World.close, List.length_modify]
    exact last zero
  · intro i r' reply' recorded' differ ended
    rcases recorded'.of_close with ⟨-, recorded'⟩ | ⟨same, -⟩
    · exact .inl (calm.ended recorded' ended)
    · exact (differ same.symm).elim

/-- Time passes until the next call is due. -/
theorem advance (calm : Calm e s began w cs) {t : Nat} (later : w.clock < t) :
    Calm e s began { w with clock := t } cs := by
  obtain ⟨⟨ledger, since, starts, -⟩, ended⟩ := calm
  refine ⟨⟨⟨ledger.executor, ledger.distinct, ledger.entry, ledger.owner⟩, ?_, ?_, ?_⟩, ?_⟩
  · exact Nat.le_trans since (Nat.le_of_lt later)
  · intro r hr
    exact ⟨(starts r hr).1, Nat.le_trans (starts r hr).2 (Nat.le_of_lt later)⟩
  · intro r hr now
    have := (starts r hr).2
    dsimp only at now
    omega
  · intro i r reply recorded isEnded
    obtain ⟨succeeded, due⟩ := ended ⟨recorded.record, recorded.replied⟩ isEnded
    exact ⟨succeeded, Nat.le_trans due (Nat.le_of_lt later)⟩

end Calm

namespace Failing

theorem same (failing : Failing e s began w cs k r reply failure) (same : w.SameLog w') :
    Failing e s began w' cs k r reply failure where
  toTimed := failing.toTimed.same same
  recorded := failing.recorded.of_sameLog ⟨same.executor.symm, same.clock.symm, same.calls.symm⟩
  failed := failing.failed
  now := failing.now.trans same.clock.symm
  last := by
    rw [same.calls]
    exact failing.last
  others recorded := by
    rw [same.clock]
    exact failing.others (recorded.of_sameLog same)

/-- A call that goes on is given up. -/
theorem giveUp (failing : Failing e s began w (c :: cs) k r reply failure)
    (delay : 0 < c.reply.delay) (due : w.clock ≤ c.wake) :
    Failing e s began (w.close c.ticket .dropped) cs k r reply failure := by
  obtain ⟨r', recorded', -, -, opened, wake⟩ :=
    Recorded.of_mem failing.ledger List.mem_cons_self
  have differ : c.ticket ≠ k := by
    rintro rfl
    obtain ⟨rfl, -⟩ := recorded'.unique failing.recorded
    cases opened.symm.trans failing.failed.ending
  refine ⟨failing.toTimed.close _, failing.recorded.close_of_ne differ _, failing.failed,
    failing.now, ?_, ?_⟩
  · rw [World.close, List.length_modify]
    exact failing.last
  · intro i r'' reply'' recorded differ' ended
    rcases recorded.of_close with ⟨-, found⟩ | ⟨rfl, r'', found, rfl⟩
    · exact failing.others found differ' ended
    · obtain ⟨rfl, rfl⟩ := found.unique recorded'
      exact .inr ⟨rfl, delay, wake ▸ due⟩

end Failing

/-! ## One instant -/

namespace Process

/-- Whether nothing in a process has failed. -/
def Healthy : Process → Prop
  | .done (.ok _) => True
  | .done (.error _) => False
  | .call _ => True
  | .named _ body => body.Healthy
  | .seq _ inner => inner.Healthy
  | .par _ left right => left.Healthy ∧ right.Healthy

/-- Whether the calls that go on in a process take time and none is over before the instant `t`. -/
def Waits (t : Nat) (p : Process) : Prop := ∀ c ∈ p.calls, 0 < c.reply.delay ∧ t ≤ c.wake

theorem Waits.done {t : Nat} {result : Except RunError Val} : (Process.done result).Waits t := by
  intro c hc
  cases hc

theorem Waits.par_iff {t : Nat} {flag : Bool} {left right : Process} :
    (Process.par flag left right).Waits t ↔ left.Waits t ∧ right.Waits t := by
  simp only [Waits, calls, List.mem_append]
  exact ⟨fun h ↦ ⟨fun c hc ↦ h c (.inl hc), fun c hc ↦ h c (.inr hc)⟩,
    fun h c hc ↦ hc.elim (h.1 c) (h.2 c)⟩

theorem Waits.mono {t t' : Nat} {p : Process} (waits : p.Waits t) (le : t' ≤ t) : p.Waits t' :=
  fun c hc ↦ ⟨(waits c hc).1, Nat.le_trans le (waits c hc).2⟩

end Process

/-- The calls of a process that is given up are given up. -/
theorem Failing.drop {p : Process} {F : List Call}
    (failing : Failing e s began w (p.calls ++ F) k r reply failure) (waits : p.Waits w.clock) :
    Failing e s began (p.drop w) F k r reply failure := by
  induction p generalizing w F with
  | done => exact failing
  | call c =>
    obtain ⟨delay, due⟩ := waits c List.mem_cons_self
    exact failing.giveUp delay due
  | named site body ih => exact ih failing waits
  | seq outer inner ih => exact ih failing waits
  | par flag left right ihLeft ihRight =>
    obtain ⟨waitsLeft, waitsRight⟩ := Process.Waits.par_iff.1 waits
    rw [Process.calls, List.append_assoc] at failing
    rw [Process.drop]
    refine ihRight (ihLeft failing waitsLeft) ?_
    rw [Process.clock_drop]
    exact waitsRight

/-- How a process stands at the end of an instant, while the calls in `F` go on around it: all is
calm in it, or it is the error of the call that has failed. -/
inductive Goes (e : Executor σ) (s : σ) (began : Nat) (w : World σ Unit) (F : List Call) :
    Process → Prop
  | calm {p : Process} : p.Healthy → p.Waits (w.clock + 1) → Calm e s began w (p.calls ++ F) →
      Goes e s began w F p
  | failing {k : Nat} {r : CallRecord} {reply : Reply} {failure : TaskFailure} :
      Failing e s began w F k r reply failure →
      Goes e s began w F (.done (.error (.task r.task r.input failure)))

namespace Goes

variable {F : List Call} {p : Process}

theorem same (goes : Goes e s began w F p) (same : w.SameLog w') : Goes e s began w' F p := by
  cases goes with
  | calm healthy waits calm => exact .calm healthy (same.clock ▸ waits) (calm.same same)
  | failing failing => exact .failing (failing.same same)

theorem named (goes : Goes e s began w F p) (pending : p.isDone = false) (site : Site) :
    Goes e s began w F (.named site p) := by
  cases goes with
  | calm healthy waits calm => exact .calm healthy waits calm
  | failing => cases pending

theorem seq (goes : Goes e s began w F p) (pending : p.isDone = false) (outer : Plan) :
    Goes e s began w F (.seq outer p) := by
  cases goes with
  | calm healthy waits calm => exact .calm healthy waits calm
  | failing => cases pending

end Goes

namespace Machine

variable {m : Machine σ Unit} {p p' : Process} {F : List Call}

/-- A call that is due yields a value or fails. -/
theorem goes_finish (plain : m.Plain) (going : w.stopped = false)
    (quiet : (Process.call c).Quiet) (calm : Calm m.executor s began w (c :: F))
    (due : c.wake = w.clock) (last : c.reply.delay = 0 → c.ticket + 1 = w.calls.length) :
    Goes m.executor s began (m.finish c w).2 F (m.finish c w).1 ∧
      (0 < c.reply.delay → ∀ v, (m.finish c w).1 = .done (.ok v) →
        Stirred m.executor s began (m.finish c w).2) := by
  rw [plain.finish_eq quiet going, Call.result]
  cases result : c.reply.result with
  | ok v =>
    obtain ⟨calm, stirred⟩ := calm.succeed due result
    exact ⟨.calm trivial .done calm, fun delay _ _ ↦ stirred delay⟩
  | error failure =>
    obtain ⟨r, task, input, failing⟩ := calm.fail due result last
    rw [← task, ← input]
    refine ⟨.failing failing, ?_⟩
    rintro - v ⟨⟩

/-- What a product comes to if its left branch is calm. -/
theorem Joins.goes (policy : m.policy = .failFast) {left right q : Process}
    (h : m.Joins w left right q w') (healthy : left.Healthy) (waits : left.Waits (w.clock + 1))
    (goes : Goes m.executor s began w (left.calls ++ F) right) :
    Goes m.executor s began w' F q := by
  cases goes with
  | calm healthy' waits' calm =>
    cases h with
    | ok => exact .calm trivial waits (calm.same ⟨rfl, rfl, rfl⟩)
    | left | dropRight => exact healthy.elim
    | right | dropLeft => exact healthy'.elim
    | wait =>
      refine .calm ⟨healthy, healthy'⟩ (Process.Waits.par_iff.2 ⟨waits, waits'⟩) ?_
      rw [Process.calls, List.append_assoc]
      exact (calm.perm (List.perm_append_comm_assoc _ _ _)).same ⟨rfl, rfl, rfl⟩
  | failing failing =>
    cases h with
    | left | dropRight => exact healthy.elim
    | right => exact .failing (failing.same ⟨rfl, rfl, rfl⟩)
    | dropLeft =>
      have failing := failing.drop (waits.mono (Nat.le_succ _))
      exact .failing (failing.same ⟨rfl, rfl, rfl⟩)
    | wait _ _ notRight => simp [ends, policy] at notRight

/-- A call of a task goes on, yields a value at once or fails at once. -/
theorem goes_begin (plain : m.Plain) (site : Site) (v : Val) (going : w.stopped = false)
    (calm : Calm m.executor s began w F) (stirred : Stirred m.executor s began w) :
    Goes m.executor s began (m.begin site v w).2 F (m.begin site v w).1 := by
  have calm' := calm.ask stirred site v
  have quiet : (Process.call (m.called site v w)).Quiet := plain.quiet _ _ _
  rw [begin, if_neg (by simp [going])]
  dsimp only
  split
  next now =>
    have due : (m.called site v w).wake = w.clock := congrArg (w.clock + ·) now
    refine (goes_finish (w := m.asked site v w) plain going quiet calm' due fun _ ↦ ?_).1
    rw [asked, List.length_append]
    rfl
  next takes =>
    have delay : 0 < (m.called site v w).reply.delay := Nat.pos_of_ne_zero takes
    refine .calm trivial ?_ calm'
    intro c hc
    obtain rfl := List.mem_singleton.1 hc
    exact ⟨delay, Nat.add_le_add_left delay _⟩

/-- A call that goes on yields a value, fails or goes on. -/
theorem goes_settleDue (plain : m.Plain) (going : w.stopped = false)
    (quiet : (Process.call c).Quiet) (waits : (Process.call c).Waits w.clock)
    (calm : Calm m.executor s began w (c :: F)) :
    Goes m.executor s began (m.settleDue c w).2 F (m.settleDue c w).1 ∧
      ∀ v, (m.settleDue c w).1 = .done (.ok v) →
        Stirred m.executor s began (m.settleDue c w).2 := by
  obtain ⟨delay, le⟩ := waits c List.mem_cons_self
  rw [settleDue]
  split
  next due =>
    have goes := goes_finish plain going quiet calm (Nat.le_antisymm due le)
      fun zero ↦ (Nat.ne_of_gt delay zero).elim
    exact ⟨goes.1, goes.2 delay⟩
  next early =>
    refine ⟨.calm trivial ?_ calm, ?_⟩
    · intro d hd
      obtain rfl := List.mem_singleton.1 hd
      exact ⟨delay, Nat.not_le.1 early⟩
    · rintro v ⟨⟩

/-- Whatever starts within a stirred instant leaves it stirred. -/
theorem Starts.stirred {plan : Plan} {v : Val} (h : m.Starts plan v w p w')
    (calm : Calm m.executor s began w F) (stirred : Stirred m.executor s began w) :
    Stirred m.executor s began w' :=
  (h.keeps (bookkeeping_stirred m s began) ⟨calm.ledger, stirred⟩).2

/-- A plan that is started while all is calm comes to a calm process or to a failure. -/
theorem Starts.goes (plain : m.Plain) (policy : m.policy = .failFast) {plan : Plan} {v : Val}
    (h : m.Starts plan v w p w') (going : w.stopped = false) (calm : Calm m.executor s began w F)
    (stirred : Stirred m.executor s began w) : Goes m.executor s began w' F p := by
  induction h generalizing F with
  | task => exact goes_begin plain _ _ going calm stirred
  | named _ leaves ih =>
    have goes := ih going calm stirred
    obtain ⟨rfl, rfl | ⟨pending, rfl⟩⟩ := plain.eq_of_leaves leaves
    · exact goes
    · exact goes.named pending _
  | seqOk inner _ ihInner ihOuter =>
    cases ihInner going calm stirred with
    | calm _ _ calm' =>
      have going' := (inner.scopes plain.quiet).2.stopped_eq.trans going
      exact ihOuter going' calm' (inner.stirred calm stirred)
  | seqError _ ih => exact ih going calm stirred
  | seqWait _ pending ih => exact (ih going calm stirred).seq pending _
  | parEnds _ _ ih =>
    have goes := ih (by simpa using going) (calm.same ⟨rfl, rfl, rfl⟩)
      (stirred.same ⟨rfl, rfl, rfl⟩)
    exact goes.same ⟨rfl, rfl, rfl⟩
  | @par _ _ _ w _ _ _ _ _ _ left notLeft right joins ihLeft ihRight =>
    have calm : Calm m.executor s began (w.enter false) F := calm.same ⟨rfl, rfl, rfl⟩
    have stirred : Stirred m.executor s began (w.enter false) := stirred.same ⟨rfl, rfl, rfl⟩
    have going' : (w.enter false).stopped = false := by simpa using going
    cases ihLeft going' calm stirred with
    | calm healthy waits calm' =>
      have going'' := (left.scopes plain.quiet).2.stopped_eq.trans going'
      have goes := ihRight going'' calm' (left.stirred calm stirred)
      exact joins.goes policy healthy (right.clock_eq ▸ waits) goes
    | failing => simp [ends, policy] at notLeft

theorem Resumes.stirred (h : m.Resumes m.settleDue p w p' w')
    (calm : Calm m.executor s began w (p.calls ++ F)) (stirred : Stirred m.executor s began w) :
    Stirred m.executor s began w' :=
  (h.keeps (bookkeeping_stirred m s began) (settleDue_keeps (bookkeeping_stirred m s began))
    ⟨calm.ledger, stirred⟩).2

/-- A process that is resumed while all is calm comes to a calm process or to a failure.  It is done
only if one of its calls has yielded a value. -/
theorem Resumes.goes (plain : m.Plain) (policy : m.policy = .failFast)
    (h : m.Resumes m.settleDue p w p' w') (settled : m.Settled p) (quiet : p.Quiet)
    (going : w.stopped = false) (healthy : p.Healthy) (waits : p.Waits w.clock)
    (calm : Calm m.executor s began w (p.calls ++ F)) :
    Goes m.executor s began w' F p' ∧
      (p.isDone = false → ∀ v, p' = .done (.ok v) → Stirred m.executor s began w') := by
  induction h generalizing F with
  | done =>
    refine ⟨.calm healthy .done calm, ?_⟩
    rintro ⟨⟩
  | call =>
    obtain ⟨goes, stirred⟩ := goes_settleDue plain going quiet waits calm
    exact ⟨goes, fun _ ↦ stirred⟩
  | named _ leaves ih =>
    obtain ⟨goes, stirred⟩ := ih settled.1 quiet going healthy waits calm
    obtain ⟨rfl, rfl | ⟨pending, rfl⟩⟩ := plain.eq_of_leaves leaves
    · exact ⟨goes, fun _ ↦ stirred settled.2⟩
    · refine ⟨goes.named pending _, ?_⟩
      rintro - v ⟨⟩
  | seqOk inner starts ih =>
    obtain ⟨goes, stirred⟩ := ih settled.1 quiet going healthy waits calm
    cases goes with
    | calm _ _ calm' =>
      have stirred := stirred settled.2 _ rfl
      have going' := (inner.scopes plain.quiet settleDue_scopes quiet).2.stopped_eq.trans going
      exact ⟨starts.goes plain policy going' calm' stirred,
        fun _ _ _ ↦ starts.stirred calm' stirred⟩
  | seqError _ ih =>
    refine ⟨(ih settled.1 quiet going healthy waits calm).1, ?_⟩
    rintro - v ⟨⟩
  | seqWait _ pending ih =>
    refine ⟨(ih settled.1 quiet going healthy waits calm).1.seq pending _, ?_⟩
    rintro - v ⟨⟩
  | @parEnds _ left right w _ w₁ resumes ends ih =>
    obtain ⟨rfl, quietLeft, -⟩ := quiet
    obtain ⟨waitsLeft, waitsRight⟩ := Process.Waits.par_iff.1 waits
    rw [Process.calls, List.append_assoc] at calm
    have goes := (ih settled.1 quietLeft (by simpa using going) healthy.1 waitsLeft
      (calm.same ⟨rfl, rfl, rfl⟩)).1
    obtain ⟨e, rfl, -⟩ := m.ends_iff.1 ends
    cases goes with
    | calm healthy => exact healthy.elim
    | failing failing =>
      have failing := failing.drop (resumes.clock_eq m.clock_settleDue ▸ waitsRight)
      refine ⟨.failing (failing.same ⟨rfl, rfl, rfl⟩), ?_⟩
      rintro - v ⟨⟩
  | @par _ left right w l w₁ r w₂ _ _ resumes notLeft resumes' joins ihLeft ihRight =>
    obtain ⟨rfl, quietLeft, quietRight⟩ := quiet
    obtain ⟨waitsLeft, waitsRight⟩ := Process.Waits.par_iff.1 waits
    obtain ⟨settledLeft, settledRight, pending, -⟩ := settled
    rw [Process.calls, List.append_assoc] at calm
    have calm : Calm m.executor s began (w.enter false) (left.calls ++ (right.calls ++ F)) :=
      calm.same ⟨rfl, rfl, rfl⟩
    have going' : (w.enter false).stopped = false := by simpa using going
    obtain ⟨goes, stirred⟩ := ihLeft settledLeft quietLeft going' healthy.1 waitsLeft calm
    cases goes with
    | failing => simp [ends, policy] at notLeft
    | calm healthyLeft waitsLeft calm' =>
      have scopes := (resumes.scopes plain.quiet settleDue_scopes quietLeft).2
      have going'' := scopes.stopped_eq.trans going'
      have calm' := calm'.perm (List.perm_append_comm_assoc _ _ _)
      obtain ⟨goes', stirred'⟩ := ihRight settledRight quietRight going'' healthy.2
        (resumes.clock_eq m.clock_settleDue ▸ waitsRight) calm'
      have still := resumes'.clock_eq m.clock_settleDue
      refine ⟨joins.goes policy healthyLeft (still ▸ waitsLeft) goes', ?_⟩
      rintro - v rfl
      cases joins with
      | ok =>
        -- one of the branches went on before this instant
        rcases Bool.and_eq_false_iff.1 pending with pending | pending
        · exact (resumes'.stirred calm' (stirred pending _ rfl)).same ⟨rfl, rfl, rfl⟩
        · exact (stirred' pending _ rfl).same ⟨rfl, rfl, rfl⟩

/-! ## The whole run -/

/-- A run that fails fast comes to its end in calm or by the failure of a call. -/
theorem run_goes (plain : m.Plain) (policy : m.policy = .failFast) (plan : Plan) (input : Val)
    (s : σ) (clock : Nat) :
    Goes m.executor s clock (m.run plan input s () clock none).2 []
        (.done (m.run plan input s () clock none).1) ∧
      (m.run plan input s () clock none).2.stopped = false := by
  refine And.imp_left And.left (m.run_spec_of_quiet plain.quiet
    (I := fun p w ↦ Goes m.executor s clock w [] p ∧ m.Settled p) ?_ ?_)
  · intro p w starts
    refine ⟨starts.goes plain policy rfl ?_ (.inl rfl), starts.settled⟩
    refine ⟨⟨.initial m s () clock none, Nat.le_refl _, ?_, ?_⟩, ?_⟩
    · intro r hr
      cases hr
    · intro r hr
      cases hr
    · intro i r reply recorded
      cases recorded.record
  · rintro p w t p' w' ⟨goes, settled⟩ quiet going wake resumes
    refine ⟨?_, resumes.settled settled_settleDue⟩
    cases goes with
    | failing => cases wake
    | calm healthy waits calm =>
      obtain ⟨first, c, hc, now⟩ := Process.nextWake_spec wake
      have later : w.clock < t := now ▸ (waits c hc).2
      have waits : p.Waits t := fun d hd ↦ ⟨(waits d hd).1, first d hd⟩
      exact (resumes.goes plain policy settled quiet going healthy waits (calm.advance later)).1

end Machine

/-- Whether no two calls that take time are due at the same instant.  What would be due after the
end of the run does not matter. -/
def Separate (e : Executor σ) (s : σ) (w : World σ Unit) : Prop :=
  ∀ {i j r r' reply reply'}, Recorded e s w i r reply → Recorded e s w j r' reply' →
    0 < reply.delay → 0 < reply'.delay → r.due reply = r'.due reply' → r.due reply ≤ w.clock → i = j

/-- It is so if all instants at which calls are due are different. -/
theorem Separate.of_nodup {e : Executor σ} {s : σ} {w : World σ Unit}
    (distinct : (w.calls.zipWith CallRecord.due (e.replies s w.made)).Nodup) : Separate e s w := by
  intro i j r r' reply reply' recorded recorded' _ _ same _
  have at_i : (w.calls.zipWith due (e.replies s w.made))[i]? = some (r.due reply) := by
    rw [List.getElem?_zipWith, recorded.record, recorded.replied]
  have at_j : (w.calls.zipWith due (e.replies s w.made))[j]? = some (r'.due reply') := by
    rw [List.getElem?_zipWith, recorded'.record, recorded'.replied]
  exact (List.getElem?_inj (List.getElem?_eq_some_iff.1 at_i).1 distinct).1
    (at_i.trans ((congrArg some same).trans at_j.symm))

/-- What it means that the call number `k` has stopped a run. -/
structure StoppedBy (e : Executor σ) (s : σ) (ended : Except RunError Val × World σ Unit) (k : Nat)
    (r : CallRecord) (reply : Reply) (failure : TaskFailure) : Prop where
  result : ended.1 = .error (.task r.task r.input failure)
  /-- the run ends in the same instant -/
  clock : ended.2.clock = r.due reply
  /-- what was over by then has yielded a value -/
  finished : ∀ {i r' reply'}, Recorded e s ended.2 i r' reply' → i ≠ k →
    r'.due reply' ≤ r.due reply → r'.Succeeded reply'
  /-- what would still go on has been given up in that instant -/
  dropped : ∀ {i r' reply'}, Recorded e s ended.2 i r' reply' → r.due reply < r'.due reply' →
    r'.ending = some (r.due reply, .dropped)
  /-- nothing has begun after it -/
  starts : ∀ {i r'}, ended.2.calls[i]? = some r' →
    r'.start < r.due reply ∨ r'.start = r.due reply ∧ i ≤ k
  /-- no other call has failed -/
  only : ∀ {i r' t}, ended.2.calls[i]? = some r' → r'.ending = some (t, .failed) → i = k
  uncancelled : ended.2.cancelled = false

/-- A call that is due when another one fails has yielded a value. -/
theorem Failing.succeeded (failing : Failing e s began w cs k r reply failure)
    (separate : Separate e s w) {i : Nat} {r' : CallRecord} {reply' : Reply}
    (recorded : Recorded e s w i r' reply') (delay : 0 < reply'.delay)
    (due : r'.due reply' = w.clock) (differ : i ≠ k) : r'.Succeeded reply' := by
  have now := failing.now
  by_cases takes : 0 < reply.delay
  · exact (differ (separate recorded failing.recorded delay takes (due.trans now.symm)
      (Nat.le_of_eq due))).elim
  · have started : r.start = w.clock := by
      rw [CallRecord.due] at now
      omega
    have mem := List.mem_of_getElem? failing.recorded.record
    rcases failing.stirred r mem started with first | ⟨j, r'', reply'', recorded', succeeded, rest⟩
    · have since := (failing.starts r' (List.mem_of_getElem? recorded.record)).1
      rw [CallRecord.due] at due
      omega
    · obtain rfl := separate recorded recorded' delay rest.1 (due.trans rest.2.symm)
        (Nat.le_of_eq due)
      obtain ⟨rfl, rfl⟩ := recorded.unique recorded'
      exact succeeded

/-- Nothing has begun after a call has failed. -/
theorem Failing.start_le (failing : Failing e s began w cs k r reply failure)
    (separate : Separate e s w) {i : Nat} {r' : CallRecord} (found : w.calls[i]? = some r') :
    r'.start < w.clock ∨ r'.start = w.clock ∧ i ≤ k := by
  have mem := List.mem_of_getElem? found
  rcases Nat.lt_or_eq_of_le (failing.starts r' mem).2 with before | same
  · exact .inl before
  refine .inr ⟨same, ?_⟩
  by_cases zero : reply.delay = 0
  · have last := failing.last zero
    have less := (List.getElem?_eq_some_iff.1 found).1
    omega
  -- what begins now follows an instant or a call at which nothing else is due
  have now := failing.now
  have since := (failing.starts r (List.mem_of_getElem? failing.recorded.record)).1
  rcases failing.stirred r' mem same with first | ⟨j, r'', reply'', recorded, succeeded, rest⟩
  · rw [CallRecord.due] at now
    omega
  · obtain rfl := separate recorded failing.recorded rest.1 (Nat.pos_of_ne_zero zero)
      (rest.2.trans now.symm) (Nat.le_of_eq rest.2)
    obtain ⟨rfl, rfl⟩ := recorded.unique failing.recorded
    exact (failing.failed.not_succeeded succeeded).elim

/-- The call that has failed when nothing goes on any more has stopped the run. -/
theorem Failing.stoppedBy (failing : Failing e s began w [] k r reply failure)
    (separate : Separate e s w) (uncancelled : w.cancelled = false) :
    StoppedBy e s (.error (.task r.task r.input failure), w) k r reply failure := by
  have now := failing.now
  have others : ∀ {i r' reply'}, Recorded e s w i r' reply' → i ≠ k →
      r'.Succeeded reply' ∧ r'.due reply' ≤ w.clock ∨ r'.GivenUp reply' w.clock := by
    intro i r' reply' recorded differ
    have ended := failing.ledger.ending_isSome (List.mem_of_getElem? recorded.record)
    exact failing.others recorded differ (Option.isSome_iff_ne_none.1 ended)
  have finished : ∀ {i r' reply'}, Recorded e s w i r' reply' → i ≠ k →
      r'.due reply' ≤ r.due reply → r'.Succeeded reply' := by
    intro i r' reply' recorded differ due
    rcases others recorded differ with ⟨succeeded, -⟩ | ⟨-, delay, le⟩
    · exact succeeded
    · exact failing.succeeded separate recorded delay (Nat.le_antisymm (now ▸ due) le) differ
  have dropped : ∀ {i r' reply'}, Recorded e s w i r' reply' → r.due reply < r'.due reply' →
      r'.ending = some (r.due reply, .dropped) := by
    intro i r' reply' recorded late
    have differ : i ≠ k := by
      rintro rfl
      obtain ⟨rfl, rfl⟩ := recorded.unique failing.recorded
      exact Nat.lt_irrefl _ late
    rcases others recorded differ with ⟨-, due⟩ | ⟨ending, -, -⟩
    · omega
    · rw [now]
      exact ending
  refine ⟨rfl, now.symm, finished, dropped, ?_, ?_, uncancelled⟩
  · intro i r' found
    rw [now]
    exact failing.start_le separate found
  · intro i r' t found ending
    obtain ⟨reply', recorded⟩ := Recorded.of_getElem? found
    refine Decidable.byContradiction fun differ ↦ ?_
    by_cases due : r'.due reply' ≤ r.due reply
    · have := ending.symm.trans (finished recorded differ due).ending
      split at this <;> cases this
    · cases ending.symm.trans (dropped recorded (Nat.not_le.1 due))

/-- If a call fails in a run that fails fast, then it stops the run, wherever it stands in the
program, unless calls that take time are due at the same instant. -/
theorem stoppedBy_of_failed {e : Executor σ} (quiet : e.Quiet) (p : Program) (input : Val) (s : σ)
    (clock : Nat)
    (separate : Separate e s ((Machine.mk e .blind .failFast).run p.plan input s () clock none).2)
    {k : Nat} {r : CallRecord} {reply : Reply} {failure : TaskFailure}
    (recorded : Recorded e s
      ((Machine.mk e .blind .failFast).run p.plan input s () clock none).2 k r reply)
    (failed : r.Failed reply failure) :
    StoppedBy e s ((Machine.mk e .blind .failFast).run p.plan input s () clock none) k r reply
      failure := by
  have goes := Machine.run_goes (m := ⟨e, .blind, .failFast⟩) ⟨rfl, quiet⟩ rfl p.plan input s clock
  generalize (Machine.mk e .blind .failFast).run p.plan input s () clock none = ended at *
  obtain ⟨result, w⟩ := ended
  obtain ⟨goes, going⟩ := goes
  have uncancelled : w.cancelled = false := by
    rw [World.stopped, Bool.or_eq_false_iff] at going
    exact going.1
  have ended : r.ending ≠ none := by simp [failed.ending]
  dsimp only at goes
  generalize same : Process.done result = q at goes
  cases goes with
  | calm _ _ calm => exact (failed.not_succeeded (calm.ended recorded ended).1).elim
  | @failing k₀ r₀ reply₀ failure₀ failing =>
    obtain rfl : k = k₀ := by
      refine Decidable.byContradiction fun differ ↦ ?_
      rcases failing.others recorded differ ended with ⟨succeeded, -⟩ | ⟨ending, delay, -⟩
      · exact failed.not_succeeded succeeded
      · have due : r.due reply = w.clock := by
          have := failed.ending.symm.trans ending
          simp only [Option.some.injEq, Prod.mk.injEq] at this
          exact this.1
        exact failed.not_succeeded (failing.succeeded separate recorded delay due differ)
    obtain ⟨rfl, rfl⟩ := recorded.unique failing.recorded
    cases failed.result.symm.trans failing.failed.result
    cases same
    exact failing.stoppedBy separate uncancelled

/-- A functor fails in the branch of a product while the other branch would go on. -/
theorem stoppedBy_of_failed_branch :
    ∃ p, Program.parse "f = broken ∘ first\nafter ∘ (slow × f)" = .ok p ∧
      let e := Executor.within 30 (Script.executor [("first", [⟨10, false, false, .echo⟩]),
        ("broken", [⟨10, false, false, .fail "no"⟩]), ("slow", [⟨50, false, false, .echo⟩])])
      let ended := (Machine.mk e .blind .failFast).run p.plan .unit [] () 0 none
      let broken : CallRecord := ⟨"broken", .unit, 10, some (20, .failed)⟩
      let reply : Reply := ⟨10, false, false, .error (.failed "no"), false⟩
      e.Quiet ∧ Separate e [] ended.2 ∧ Recorded e [] ended.2 2 broken reply ∧
        broken.Failed reply (.failed "no") ∧
        StoppedBy e [] ended 2 broken reply (.failed "no") := by
  have parsed := Except.eq_ok_get
    (x := Program.parse "f = broken ∘ first\nafter ∘ (slow × f)") (by decide)
  refine ⟨_, parsed, ?_⟩
  intro e ended broken reply
  have quiet : e.Quiet := Executor.Quiet.within (Script.quiet_executor (by decide)) 30
  have calls : ended.2.calls = [⟨"slow", .unit, 0, some (20, .dropped)⟩,
      ⟨"first", .unit, 0, some (10, .ok)⟩, broken] := by decide +kernel
  have made : ended.2.made = [("slow", .unit), ("first", .unit), ("broken", .unit)] := by
    rw [World.made, calls]
    rfl
  have separate : Separate e [] ended.2 := by
    refine Separate.of_nodup ?_
    rw [calls, made]
    decide
  have recorded : Recorded e [] ended.2 2 broken reply := by
    constructor
    · rw [calls]
      rfl
    · rw [made]
      rfl
  have failed : broken.Failed reply (.failed "no") := ⟨rfl, rfl⟩
  exact ⟨quiet, separate, recorded, failed,
    stoppedBy_of_failed quiet _ .unit [] 0 separate recorded failed⟩
end Taskflow
