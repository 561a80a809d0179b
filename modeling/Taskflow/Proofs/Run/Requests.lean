import Taskflow.Proofs.Run.Annals
import Taskflow.Proofs.Run.Cancellation
import Taskflow.Proofs.Run.FailFast

/-!
# Why something is cancelled

Nothing in a run is cancelled unprompted.  If a scope is cancelled, then the caller has cancelled the
run by then, or a call is over that cancels a scope (`Requested`).  This is so of the place at which
a plan is started and of every product that waits, and what is started or resumed keeps it so
(`Starts.prompted`, `Resumes.prompted`).
-/

namespace Taskflow

variable {σ ω : Type}

/-! ## Replies stay -/

namespace Executor

theorem replies_append (e : Executor σ) (s : σ) (asked more : List (String × Val)) :
    e.replies s (asked ++ more) = e.replies s asked ++ e.replies (e.after s asked) more := by
  induction asked generalizing s with
  | nil => rfl
  | cons k rest ih => exact congrArg _ (ih _)

/-- Every reply is one that the executor gives at some time. -/
theorem exists_respond {e : Executor σ} {s : σ} {asked : List (String × Val)} {i : Nat}
    {reply : Reply} (replied : (e.replies s asked)[i]? = some reply) :
    ∃ task input s', (e.respond task input s').1 = reply := by
  induction asked generalizing s i with
  | nil => cases replied
  | cons k rest ih =>
    cases i with
    | zero => exact ⟨k.1, k.2, s, Option.some.inj replied⟩
    | succ i => exact ih replied

end Executor

namespace World.Precedes

variable {u w : World σ ω}

/-- Calls that were made were made. -/
theorem made_prefix (h : u.Precedes w) : u.made <+: w.made := by
  rw [List.prefix_iff_getElem?]
  intro i less
  have found := List.getElem?_eq_getElem (l := u.calls) (i := i) (by simpa using less)
  obtain ⟨ending, kept, -⟩ := h.kept found
  simp [made, kept]

/-- A reply stays the reply. -/
theorem replied (h : u.Precedes w) {e : Executor σ} {s : σ} {i : Nat} {reply : Reply}
    (replied : (e.replies s u.made)[i]? = some reply) :
    (e.replies s w.made)[i]? = some reply := by
  obtain ⟨more, made⟩ := h.made_prefix
  have less := (List.getElem?_eq_some_iff.1 replied).1
  rw [← made, e.replies_append, List.getElem?_append_left less]
  exact replied

end World.Precedes

/-! ## Requests -/

namespace CallRecord

/-- The call has come to its end. -/
def Over (r : CallRecord) (reply : Reply) : Prop :=
  r.Succeeded reply ∨ ∃ failure, r.Failed reply failure

theorem Over.ending_ne {r : CallRecord} {reply : Reply} (ended : r.Over reply) : r.ending ≠ none := by
  rcases ended with ⟨-, ending⟩ | ⟨_, -, ending⟩ <;> simp [ending]

end CallRecord

section

variable {c : Call} {task : String} {input : Val} {start t : Nat} (due : start + c.reply.delay = t)
include due

/-- The record of a call that has yielded a value when it was due. -/
theorem Call.succeeded_record {v : Val} (result : c.reply.result = .ok v) :
    (CallRecord.mk task input start (some (t, c.outcome))).Succeeded c.reply := by
  subst due
  exact ⟨⟨v, result⟩, by simp [outcome, result, CallRecord.due]⟩

theorem Call.failed_record {f : TaskFailure} (result : c.reply.result = .error f) :
    (CallRecord.mk task input start (some (t, c.outcome))).Failed c.reply f := by
  subst due
  exact ⟨result, by simp [outcome, result, CallRecord.due]⟩

theorem Call.over_record :
    (CallRecord.mk task input start (some (t, c.outcome))).Over c.reply := by
  cases result : c.reply.result with
  | ok v => exact .inl (succeeded_record due result)
  | error f => exact .inr ⟨f, failed_record due result⟩

end

/-- Whether a cancellation has been asked for by the instant `t`. -/
inductive Requested (e : Executor σ) (s : σ) (cancelAt : Option Nat) (w : World σ ω) (t : Nat) :
    Prop
  | caller {c : Nat} : cancelAt = some c → c ≤ t → Requested e s cancelAt w t
  | call {i : Nat} {r : CallRecord} {reply : Reply} :
    w.calls[i]? = some r → (e.replies s w.made)[i]? = some reply → r.Over reply →
      reply.cancelsScope = true ∨ reply.cancelsRun = true → r.due reply ≤ t →
      Requested e s cancelAt w t

/-- What has been asked for has been asked for ever after. -/
theorem Requested.later {e : Executor σ} {s : σ} {cancelAt : Option Nat} {u w : World σ ω}
    {t t' : Nat} (requested : Requested e s cancelAt u t) (precedes : u.Precedes w)
    (later : t ≤ t') : Requested e s cancelAt w t' := by
  cases requested with
  | caller at' before => exact .caller at' (Nat.le_trans before later)
  | call found replied ended cancels due =>
    exact .call (precedes.closed found ended.ending_ne) (precedes.replied replied) ended cancels
      (Nat.le_trans due later)

/-- Whether the scope of some product is cancelled. -/
def Process.Flagged : Process → Prop
  | .done _ | .call _ => False
  | .named _ body => body.Flagged
  | .seq _ inner => inner.Flagged
  | .par flag left right => flag = true ∨ left.Flagged ∨ right.Flagged

theorem Process.not_flagged_of_isDone {p : Process} (done : p.isDone = true) : ¬p.Flagged := by
  rw [eq_done_of_isDone done]
  exact id

/-- Whether all that is cancelled at a place or in a process has been asked for. -/
structure Prompted (e : Executor σ) (s : σ) (cancelAt : Option Nat) (w : World σ ω) (p : Process) :
    Prop where
  place : w.stopped = true → Requested e s cancelAt w w.clock
  flags : p.Flagged → Requested e s cancelAt w w.clock

namespace World

variable {w : World σ ω}

theorem stopped_of_leave (stopped : w.leave.stopped = true) : w.stopped = true := by
  simp only [World.stopped, leave, Bool.or_eq_true] at *
  refine stopped.imp_right fun cancelled ↦ ?_
  cases scopes : w.scopes with
  | nil => simp [scopes] at cancelled
  | cons flag outer =>
    rw [scopes] at cancelled
    simp_all

theorem stopped_of_flag (flag : w.flag = true) : w.stopped = true := by
  unfold World.stopped World.flag at *
  cases scopes : w.scopes <;> simp_all

theorem stopped_enter_iff {flag : Bool} :
    (w.enter flag).stopped = true ↔ flag = true ∨ w.stopped = true := by
  simp only [World.stopped, enter, List.any_cons, id, Bool.or_eq_true]
  exact or_left_comm

/-- Only what a call cancels is cancelled when it is over. -/
theorem stopped_of_cancelBy {reply : Reply} (stopped : (w.cancelBy reply).stopped = true) :
    w.stopped = true ∨ reply.cancelsScope = true ∨ reply.cancelsRun = true := by
  cases scope : reply.cancelsScope with
  | true => exact .inr (.inl rfl)
  | false =>
    cases run : reply.cancelsRun with
    | true => exact .inr (.inr rfl)
    | false =>
      rw [cancelBy_eq scope run] at stopped
      exact .inl stopped

end World

namespace Prompted

variable {e : Executor σ} {s : σ} {cancelAt : Option Nat} {u w w' : World σ ω}
  {p q r : Process}

/-- What happens to a log without any cancellation. -/
theorem later (h : Prompted e s cancelAt u p) (precedes : u.Precedes w)
    (stopped : w.stopped = true → u.stopped = true) (flags : q.Flagged → p.Flagged) :
    Prompted e s cancelAt w q where
  place stopped' := (h.place (stopped stopped')).later precedes precedes.clock
  flags flagged := (h.flags (flags flagged)).later precedes precedes.clock

theorem enter (h : Prompted e s cancelAt w p) {flag : Bool} (inside : flag = true → p.Flagged)
    (flags : q.Flagged → p.Flagged) : Prompted e s cancelAt (w.enter flag) q where
  place stopped := by
    refine Requested.later (u := w) ?_ (.of_sameLog (.enter w flag)) (Nat.le_refl _)
    rcases World.stopped_enter_iff.1 stopped with flagged | stopped
    · exact h.flags (inside flagged)
    · exact h.place stopped
  flags flagged := (h.flags (flags flagged)).later (.of_sameLog (.enter w flag)) (Nat.le_refl _)

/-- A product that is started is entered with nothing asked for in it. -/
theorem enterNew (h : Prompted e s cancelAt w p) : Prompted e s cancelAt (w.enter false) p :=
  h.enter (by simp) id

/-- What the right branch of a product was flagged for was asked for before the left one is resumed. -/
theorem right {flag : Bool} (h : Prompted e s cancelAt w (.par flag p q))
    (left : Prompted e s cancelAt w' r) (precedes : w.Precedes w') :
    Prompted e s cancelAt w' q where
  place := left.place
  flags flagged := (h.flags (.inr (.inr flagged))).later precedes precedes.clock

end Prompted

namespace Machine

variable {m : Machine σ ω} {s : σ} {cancelAt : Option Nat} {w w' : World σ ω} {p p' q r : Process}
  {F : List Call}

/-- The entry of a call that is over. -/
theorem calls_finish {c : Call} (annals : Annals m.executor s w (c :: F))
    (due : c.wake ≤ w.clock) : ∃ start,
      w.calls[c.ticket]? = some ⟨c.site.name, c.input, start, none⟩ ∧
      (m.finish c w).2.calls[c.ticket]? =
        some ⟨c.site.name, c.input, start, some (w.clock, c.outcome)⟩ ∧
      (m.executor.replies s (m.finish c w).2.made)[c.ticket]? = some c.reply ∧
      start + c.reply.delay = w.clock := by
  obtain ⟨start, found, wake, replied⟩ := annals.ledger.entry c List.mem_cons_self
  have waits := annals.waits c List.mem_cons_self
  have calls : (m.finish c w).2.calls =
      ((w.cancelBy c.reply).close c.ticket c.outcome).calls := by
    unfold finish
    dsimp only
    split
    · exact (m.observe_sameLog _ _ _).2.calls
    · rfl
  refine ⟨start, found, ?_, ?_, by omega⟩
  · rw [calls, World.getElem?_calls_close, if_pos rfl, World.calls_cancelBy, found]
    simp
  · rw [made_finish]
    exact replied

theorem stopped_of_finish {c : Call} (stopped : (m.finish c w).2.stopped = true) :
    (w.cancelBy c.reply).stopped = true := by
  unfold finish observe at stopped
  dsimp only at stopped
  split at stopped
  · split at stopped <;> exact stopped
  · exact stopped

theorem finish_prompted {c : Call} (annals : Annals m.executor s w (c :: F))
    (due : c.wake ≤ w.clock) (prompted : Prompted m.executor s cancelAt w (.call c)) :
    Prompted m.executor s cancelAt (m.finish c w).2 (m.finish c w).1 where
  place stopped := by
    have precedes := (finish_keeps (Annals.bookkeeping m s w) ⟨annals, .refl w⟩ due).2
    rcases World.stopped_of_cancelBy (stopped_of_finish stopped) with before | cancels
    · exact (prompted.place before).later precedes precedes.clock
    · obtain ⟨start, -, found, replied, now⟩ := calls_finish annals due
      rw [m.clock_finish]
      refine .call found replied ?_ cancels (Nat.le_of_eq now)
      exact Call.over_record now
  flags flagged := (Process.not_flagged_of_isDone (isDone_finish c w) flagged).elim

theorem Calls.prompted {site : Site} {v : Val} (h : m.Calls site v w p w')
    (annals : Annals m.executor s w F) (prompted : Prompted m.executor s cancelAt w q) :
    Prompted m.executor s cancelAt w' p := by
  have asked : Prompted m.executor s cancelAt (m.asked site v w) (.call (m.called site v w)) :=
    prompted.later (.asked m site v w) id False.elim
  cases h with
  | stopped => exact prompted.later (.refl w) id False.elim
  | now _ due => exact finish_prompted (annals.ask site v) due asked
  | wait => exact asked

theorem Settles.prompted {c : Call} (h : m.Settles c w p w')
    (annals : Annals m.executor s w (c :: F))
    (prompted : Prompted m.executor s cancelAt w (.call c)) :
    Prompted m.executor s cancelAt w' p := by
  cases h with
  | wait => exact prompted
  | finish due => exact finish_prompted annals due prompted
  | giveUp => exact prompted.later (.close annals.ledger _) id False.elim

theorem Leaves.prompted {site : Site} (h : m.Leaves site p w q w')
    (prompted : Prompted m.executor s cancelAt w p) : Prompted m.executor s cancelAt w' q := by
  cases h with
  | @ok v w =>
    refine prompted.later (.of_sameLog (m.observe_sameLog site v w).2) ?_ fun flagged ↦ ?_
    · unfold observe
      split <;> exact id
    · exact (Process.not_flagged_of_isDone (isDone_observe site v w) flagged).elim
  | error => exact prompted
  | wait => exact prompted.later (.refl w) id id

theorem Joins.prompted (h : m.Joins w p q r w')
    (annals : Annals m.executor s w (p.calls ++ (q.calls ++ F)))
    (left : p.Flagged → Requested m.executor s cancelAt w w.clock)
    (right : Prompted m.executor s cancelAt w q) : Prompted m.executor s cancelAt w' r := by
  have precedes := h.precedes annals
  have both : Prompted m.executor s cancelAt w (.par w.flag p q) := by
    refine ⟨right.place, ?_⟩
    rintro (flag | flagged | flagged)
    · exact right.place (World.stopped_of_flag flag)
    · exact left flagged
    · exact right.flags flagged
  cases h with
  | ok | left | right | dropLeft | dropRight =>
    refine both.later precedes (fun stopped ↦ ?_) False.elim
    have stopped := World.stopped_of_leave stopped
    simpa [World.stopped] using stopped
  | wait => exact both.later precedes World.stopped_of_leave id

/-- A plan that is started cancels nothing unprompted. -/
theorem Starts.prompted {plan : Plan} {v : Val} (h : m.Starts plan v w p w')
    (annals : Annals m.executor s w F) (prompted : Prompted m.executor s cancelAt w q) :
    Prompted m.executor s cancelAt w' p := by
  induction h generalizing q F with
  | task => exact (m.calls _ _ _).prompted annals prompted
  | named _ leaves ih => exact leaves.prompted (ih annals prompted)
  | seqOk inner _ ihInner ihOuter =>
    exact ihOuter (inner.annals annals).1 (ihInner annals prompted)
  | seqError _ ih => exact ih annals prompted
  | seqWait _ _ ih =>
    exact (ih annals prompted).later (.refl _) id id
  | @parEnds _ _ _ w _ _ left _ ih =>
    have entered := annals.same (.enter w false)
    have inside := ih entered prompted.enterNew
    exact inside.later (.of_sameLog (.leave _)) World.stopped_of_leave id
  | @par _ _ _ w _ _ _ _ _ _ left _ right joins ihLeft ihRight =>
    have entered := annals.same (.enter w false)
    obtain ⟨annals', -⟩ := left.annals entered
    obtain ⟨annals'', precedes⟩ := right.annals annals'
    have first := ihLeft entered prompted.enterNew
    refine joins.prompted (annals''.perm (List.perm_append_comm_assoc _ _ _)) (fun flagged ↦ ?_)
      (ihRight annals' first)
    exact (first.flags flagged).later precedes precedes.clock

/-- Nor does a process that is resumed. -/
theorem Resumes.prompted {settle : Call → World σ ω → Process × World σ ω}
    (settling : m.Settling settle) (h : m.Resumes settle p w p' w')
    (annals : Annals m.executor s w (p.calls ++ F)) (prompted : Prompted m.executor s cancelAt w p) :
    Prompted m.executor s cancelAt w' p' := by
  induction h generalizing F with
  | done => exact prompted
  | call => exact (settling _ _).prompted annals prompted
  | named _ leaves ih => exact leaves.prompted (ih annals (prompted.later (.refl _) id id))
  | seqOk inner outer ih =>
    have first := ih annals (prompted.later (.refl _) id id)
    exact outer.prompted (inner.annals settling annals).1 first
  | seqError _ ih => exact ih annals (prompted.later (.refl _) id id)
  | seqWait _ _ ih =>
    exact (ih annals (prompted.later (.refl _) id id)).later (.refl _) id id
  | @parEnds flag left right w l w₁ first ends ih =>
    obtain ⟨e, rfl, -⟩ := m.ends_iff.1 ends
    rw [Process.calls, List.append_assoc] at annals
    have entered := annals.same (.enter w flag)
    have inside := ih entered (prompted.enter .inl fun flagged ↦ .inr (.inl flagged))
    have dropped := Annals.drop (p := right) (first.annals settling entered).1
    refine inside.later (dropped.trans (.of_sameLog (.leave _))) (fun stopped ↦ ?_) id
    have stopped := World.stopped_of_leave stopped
    simpa [World.stopped] using stopped
  | @par flag left right w _ _ _ _ _ _ first _ second joins ihLeft ihRight =>
    rw [Process.calls, List.append_assoc] at annals
    have entered := annals.same (.enter w flag)
    obtain ⟨annals', precedes⟩ := first.annals settling entered
    have beside := annals'.perm (List.perm_append_comm_assoc _ _ _)
    obtain ⟨annals'', precedes'⟩ := second.annals settling beside
    have left := ihLeft entered (prompted.enter .inl fun flagged ↦ .inr (.inl flagged))
    have right := ihRight beside (prompted.right left (.trans (.of_sameLog (.enter w flag)) precedes))
    refine joins.prompted (annals''.perm (List.perm_append_comm_assoc _ _ _)) (fun flagged ↦ ?_) right
    exact (left.flags flagged).later precedes' precedes'.clock

end Machine

end Taskflow
