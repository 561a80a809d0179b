import Taskflow.Proofs.Run.Evaluations
import Taskflow.Proofs.Run.Requests

/-!
# What becomes of tasks

The log explains how every task ends that is evaluated (`History.Explained`): its call goes on, or
it has come to its own end, which is that of the evaluation, or it has been given up; and if the
evaluation ends as cancelled then a cancellation has been asked for by then.

An entry of the log is not touched any more once it has an ending, and while it has none its call is
one of the process.  So only the calls of a process are looked at when it goes on
(`History.All.explained_of_open`).
-/

namespace Taskflow

variable {σ ω : Type}

/-- Whether an observer refuses nothing. -/
def Observer.Accepts (a : Observer ω) : Prop := ∀ site v o, (a.observe site v o).1 = none

theorem Observer.accepts_blind : Observer.blind.Accepts := fun _ _ _ ↦ rfl

theorem Machine.observe_of_accepts {m : Machine σ ω} (accepts : m.observer.Accepts) (site : Site)
    (v : Val) (w : World σ ω) : (m.observe site v w).1 = .done (.ok v) := by
  have accepted := accepts site v w.observer
  unfold observe
  split
  next => rfl
  next refused =>
    rw [refused] at accepted
    cases accepted

/-! ## The entry of a call -/

/-- How the record of a call explains what has become of the evaluation that it was made for;
`asked t` says that a cancellation has been asked for by the instant `t`. -/
inductive CallRecord.Explains (asked : Nat → Prop) (r : CallRecord) (reply : Reply) :
    Option (Except RunError Val) → Prop
  | waits : r.ending = none → 0 < reply.delay → Explains asked r reply none
  | ok {v} : reply.result = .ok v → r.Succeeded reply → Explains asked r reply (some (.ok v))
  | failed {f} : r.Failed reply f → Explains asked r reply (some (.error (.task r.task r.input f)))
  /-- the task has noticed a cancellation and stopped -/
  | withdrawn : r.Failed reply .cancelled → asked (r.due reply) →
    Explains asked r reply (some (.error .cancelled))
  /-- the evaluation is given up with something around it -/
  | dropped {t} : r.GivenUp reply t → Explains asked r reply none
  | cancelled {t} : r.GivenUp reply t → asked t → Explains asked r reply (some (.error .cancelled))

theorem CallRecord.Explains.imp {asked asked' : Nat → Prop} {r : CallRecord} {reply : Reply}
    {result : Option (Except RunError Val)} (h : r.Explains asked reply result)
    (imp : ∀ t, asked t → asked' t) : r.Explains asked' reply result := by
  cases h with
  | waits opened delay => exact .waits opened delay
  | ok result succeeded => exact .ok result succeeded
  | failed failed => exact .failed failed
  | withdrawn failed asked => exact .withdrawn failed (imp _ asked)
  | dropped givenUp => exact .dropped givenUp
  | cancelled givenUp asked => exact .cancelled givenUp (imp _ asked)

/-- While a call goes on so does the evaluation. -/
theorem CallRecord.Explains.of_open {asked : Nat → Prop} {r : CallRecord} {reply : Reply}
    {result : Option (Except RunError Val)} (h : r.Explains asked reply result)
    (opened : r.ending = none) : result = none ∧ 0 < reply.delay := by
  cases h with
  | waits _ delay => exact ⟨rfl, delay⟩
  | ok _ succeeded => cases succeeded.ending.symm.trans opened
  | failed failed | withdrawn failed => cases failed.ending.symm.trans opened
  | dropped givenUp | cancelled givenUp => cases givenUp.ending.symm.trans opened

/-- Whether `r` is the entry number `i` of the log and that of a task that is evaluated, and `reply`
is the reply to its call. -/
structure Visit.Entered (e : Executor σ) (s : σ) (w : World σ ω) (visit : Visit σ ω) (site : Site)
    (i : Nat) (r : CallRecord) (reply : Reply) : Prop where
  record : w.calls[i]? = some r
  replied : (e.replies s w.made)[i]? = some reply
  task : r.task = site.name
  input : r.input = visit.input
  start : r.start = visit.world.clock

theorem Visit.Entered.upTo {e : Executor σ} {s : σ} {w : World σ ω} {visit : Visit σ ω} {site : Site}
    {i : Nat} {r : CallRecord} {reply : Reply} (entered : visit.Entered e s w site i r reply)
    (p : Process) : (visit.upTo p).Entered e s w site i r reply :=
  ⟨entered.record, entered.replied, entered.task, entered.input, entered.start⟩

/-- Whether they explain what has become of the evaluation. -/
structure Visit.ExplainedBy (e : Executor σ) (s : σ) (cancelAt : Option Nat) (w : World σ ω)
    (visit : Visit σ ω) (site : Site) (i : Nat) (r : CallRecord) (reply : Reply) : Prop extends
    Visit.Entered e s w visit site i r reply where
  result : r.Explains (Requested e s cancelAt w) reply visit.result

namespace History

/-- Whether the log explains what has become of a task. -/
def Explained (e : Executor σ) (s : σ) (cancelAt : Option Nat) (w : World σ ω) :
    History σ ω → Prop
  | .task visit site (some i) => ∃ r reply, visit.ExplainedBy e s cancelAt w site i r reply
  | .task visit _ none =>
    visit.result = some (.error .cancelled) ∧ Requested e s cancelAt w visit.world.clock
  | _ => True

end History

/-! ## What stays explained -/

section

variable {e : Executor σ} {s : σ} {cancelAt : Option Nat} {u w : World σ ω} {h : History σ ω}
  {p : Process} {cs F : List Call}

/-- An entry that is not touched goes on explaining the same. -/
theorem Visit.ExplainedBy.later {visit : Visit σ ω} {site : Site} {i : Nat} {r : CallRecord}
    {reply : Reply} (h : visit.ExplainedBy e s cancelAt u site i r reply)
    (precedes : u.Precedes w) (kept : w.calls[i]? = some r) :
    visit.ExplainedBy e s cancelAt w site i r reply where
  record := kept
  replied := precedes.replied h.replied
  task := h.task
  input := h.input
  start := h.start
  result := h.result.imp fun t requested ↦ requested.later precedes (Nat.le_refl t)

/-- The entry of a call that goes on is the same as before. -/
theorem Ledger.entry_of_precedes (ledger : Ledger e s w cs) (precedes : u.Precedes w) {c : Call}
    (hc : c ∈ cs) {r : CallRecord} (found : u.calls[c.ticket]? = some r) (opened : r.ending = none) :
    w.calls[c.ticket]? = some r := by
  obtain ⟨start, found', -⟩ := ledger.entry c hc
  obtain ⟨ending, kept, -⟩ := precedes.kept found
  have same := Option.some.inj (kept.symm.trans found')
  rw [kept]
  cases r
  simp_all

namespace History

theorem all_explained_unreached {plan : Plan} :
    (History.unreached plan).All (Explained e s cancelAt w) :=
  all_unreached.2 trivial

/-- What is explained stays so if that is so of the calls that go on. -/
theorem All.explained_of_open (explained : h.All (Explained e s cancelAt u))
    (among : u.OpenAmong h.tickets cs) (precedes : u.Precedes w)
    (opened : ∀ {visit : Visit σ ω} {site c r reply}, c ∈ cs →
      visit.ExplainedBy e s cancelAt u site c.ticket r reply → r.ending = none →
      ∃ r', visit.ExplainedBy e s cancelAt w site c.ticket r' reply) :
    h.All (Explained e s cancelAt w) := by
  intro g hg
  have before := explained g hg
  cases g with
  | task visit site ticket =>
    cases ticket with
    | none => exact ⟨before.1, before.2.later precedes (Nat.le_refl _)⟩
    | some i =>
      obtain ⟨r, reply, explains⟩ := before
      cases ending : r.ending with
      | none =>
        obtain ⟨r', found, among⟩ := among i (tickets_subset hg List.mem_cons_self)
        obtain rfl := Option.some.inj (explains.record.symm.trans found)
        obtain ⟨c, hc, rfl⟩ := among ending
        obtain ⟨r', explains'⟩ := opened hc explains ending
        exact ⟨r', reply, explains'⟩
      | some =>
        have kept := precedes.closed explains.record (by simp [ending])
        exact ⟨r, reply, explains.later precedes kept⟩
  | _ => trivial

theorem All.explained_of_calls_eq (explained : h.All (Explained e s cancelAt u))
    (precedes : u.Precedes w) (same : w.calls = u.calls) : h.All (Explained e s cancelAt w) := by
  refine explained.imp fun g before ↦ ?_
  cases g with
  | task visit site ticket =>
    cases ticket with
    | none => exact ⟨before.1, before.2.later precedes (Nat.le_refl _)⟩
    | some i =>
      obtain ⟨r, reply, explains⟩ := before
      exact ⟨r, reply, explains.later precedes (same ▸ explains.record)⟩
  | _ => trivial

theorem All.explained_same (explained : h.All (Explained e s cancelAt u)) (same : u.SameLog w) :
    h.All (Explained e s cancelAt w) :=
  explained.explained_of_calls_eq (.of_sameLog same) same.calls

/-- What has ended stays explained, whatever happens. -/
theorem All.explained_closed (explained : h.All (Explained e s cancelAt u))
    (closed : u.OpenAmong h.tickets []) (precedes : u.Precedes w) :
    h.All (Explained e s cancelAt w) :=
  explained.explained_of_open closed precedes fun hc ↦ nomatch hc

/-- While other calls are made and end, what goes on goes on. -/
theorem All.explained_later (explained : h.All (Explained e s cancelAt u))
    (among : u.OpenAmong h.tickets p.calls) (precedes : u.Precedes w) (ledger : Ledger e s w cs)
    (beside : p.calls ⊆ cs) : h.All (Explained e s cancelAt w) := by
  refine explained.explained_of_open among precedes fun hc explains ending ↦ ?_
  have kept := ledger.entry_of_precedes precedes (beside hc) explains.record ending
  exact ⟨_, explains.later precedes kept⟩

end History

/-- What giving up a process does to the entry of a call of it. -/
theorem Process.getElem?_calls_drop {i : Nat} {r : CallRecord} (found : w.calls[i]? = some r)
    {c : Call} (hc : c ∈ p.calls) (same : c.ticket = i) :
    (p.drop w).calls[i]? = some { r with ending := some (w.clock, .dropped) } := by
  let closed (u : World σ ω) : Prop :=
    u.calls[i]? = some { r with ending := some (w.clock, .dropped) }
  let K (u : World σ ω) (cs : List Call) : Prop := u.clock = w.clock ∧
    (closed u ∨ u.calls[i]? = some r ∧ ∃ c ∈ cs, c.ticket = i)
  have giveUp : ∀ {u c cs}, K u (c :: cs) → K (u.close c.ticket .dropped) cs := by
    rintro u c cs ⟨clock, state⟩
    refine ⟨clock, ?_⟩
    by_cases self : c.ticket = i
    · left
      rcases state with done | ⟨opened, -⟩
      · simp only [closed, World.getElem?_calls_close, if_pos self, done, clock]
        rfl
      · simp only [closed, World.getElem?_calls_close, if_pos self, opened, clock]
        rfl
    · simp only [closed, World.getElem?_calls_close, if_neg self]
      refine state.imp_right fun ⟨opened, d, hd, same⟩ ↦ ⟨opened, d, ?_, same⟩
      rcases List.mem_cons.1 hd with rfl | hd
      · exact (self same).elim
      · exact hd
  have start : K w (p.calls ++ []) :=
    ⟨rfl, .inr ⟨found, c, List.mem_append_left _ hc, same⟩⟩
  obtain ⟨-, done | ⟨-, d, hd, -⟩⟩ := Machine.drop_keeps giveUp start
  · exact done
  · cases hd

/-- A call that goes on is given up by closing its entry. -/
theorem Visit.ExplainedBy.giveUp {visit : Visit σ ω} {site : Site} {c : Call} {r : CallRecord}
    {reply : Reply} (h : visit.ExplainedBy e s cancelAt u site c.ticket r reply)
    (annals : Annals e s u cs) (hc : c ∈ cs) (opened : r.ending = none) :
    { r with ending := some (u.clock, .dropped) : CallRecord }.GivenUp reply u.clock where
  ending := rfl
  delay := (h.result.of_open opened).2
  due := by
    obtain ⟨start, found, wake, replied⟩ := annals.ledger.entry c hc
    obtain rfl := Option.some.inj (h.record.symm.trans found)
    obtain rfl := Option.some.inj (h.replied.symm.trans replied)
    have waits := annals.waits c hc
    rwa [wake] at waits

/-- What is given up is explained by that. -/
theorem History.All.explained_drop (explained : h.All (Explained e s cancelAt w))
    (among : w.OpenAmong h.tickets p.calls) (annals : Annals e s w (p.calls ++ F)) :
    h.All (Explained e s cancelAt (p.drop w)) := by
  have precedes := annals.drop
  refine explained.explained_of_open among precedes fun hc explains opened ↦ ?_
  have givenUp := explains.giveUp annals (List.mem_append_left F hc) opened
  refine ⟨_, ⟨Process.getElem?_calls_drop explains.record hc rfl,
    precedes.replied explains.replied, explains.task, explains.input, explains.start⟩, ?_⟩
  rw [(explains.result.of_open opened).1]
  exact .dropped givenUp

end

namespace Machine

variable {m : Machine σ ω} {s : σ} {cancelAt : Option Nat} {u w w' : World σ ω} {plan : Plan}
  {v : Val} {p p' q r : Process} {F : List Call} {h : History σ ω}

/-! ## The end of a call -/

/-- A call that is over is done with the result of its reply. -/
theorem finish_cases (accepts : m.observer.Accepts) (c : Call) (w : World σ ω) :
    (∃ v, c.reply.result = .ok v ∧ (m.finish c w).1 = .done (.ok v)) ∨
      ∃ f, c.reply.result = .error f ∧
        (m.finish c w).1 = .done (.error (c.blame f (m.finish c w).2.stopped)) := by
  unfold finish
  dsimp only
  cases c.reply.result with
  | ok v => exact .inl ⟨v, rfl, observe_of_accepts accepts _ _ _⟩
  | error f => exact .inr ⟨f, rfl, rfl⟩

/-- What has become of a task when its call is over. -/
theorem finish_explained (accepts : m.observer.Accepts) {c : Call}
    (annals : Annals m.executor s w (c :: F)) (due : c.wake ≤ w.clock)
    (prompted : Prompted m.executor s cancelAt w (.call c)) {visit : Visit σ ω} {site : Site}
    {r : CallRecord} {reply : Reply}
    (entered : visit.Entered m.executor s w site c.ticket r reply) :
    ∃ r', (visit.upTo (m.finish c w).1).ExplainedBy m.executor s cancelAt (m.finish c w).2 site
      c.ticket r' reply := by
  obtain ⟨start, found, found', replied, now⟩ := calls_finish annals due
  obtain rfl := Option.some.inj (entered.record.symm.trans found)
  obtain rfl : reply = c.reply := by
    have before := entered.replied
    rw [← made_finish c w] at before
    exact Option.some.inj (before.symm.trans replied)
  refine ⟨_, ⟨found', replied, entered.task, entered.input, entered.start⟩, ?_⟩
  show CallRecord.Explains _ _ _ (m.finish c w).1.result?
  rcases finish_cases accepts c w with ⟨v, result, done⟩ | ⟨f, result, done⟩
  · rw [done]
    exact .ok result (Call.succeeded_record now result)
  · have failed : (CallRecord.mk c.site.name c.input start (some (w.clock, c.outcome))).Failed
        c.reply f := Call.failed_record now result
    rw [done, Call.blame]
    split
    next blameless =>
      obtain ⟨rfl, stopped⟩ := blameless
      refine .withdrawn failed ?_
      have asked := (finish_prompted annals due prompted).place stopped
      rw [clock_finish, ← now] at asked
      exact asked
    next => exact .failed failed

theorem Calls.explained (accepts : m.observer.Accepts) {site : Site} (h : m.Calls site v w p w')
    (annals : Annals m.executor s w F) (prompted : Prompted m.executor s cancelAt w q) :
    (History.task ⟨v, w, p.result?⟩ site (if w.stopped then none else some w.calls.length)).Explained
      m.executor s cancelAt w' := by
  have annals' := annals.ask site v
  have entered : Visit.Entered m.executor s (m.asked site v w) ⟨v, w, none⟩ site
      (m.called site v w).ticket ⟨site.name, v, w.clock, none⟩ (m.called site v w).reply := by
    obtain ⟨start, found, -, replied⟩ := annals'.ledger.entry _ List.mem_cons_self
    exact ⟨List.getElem?_concat_length, replied, rfl, rfl, rfl⟩
  cases h with
  | stopped stopped =>
    rw [if_pos stopped]
    exact ⟨rfl, prompted.place stopped⟩
  | now live due =>
    rw [if_neg (by simp [live])]
    have asked : Prompted m.executor s cancelAt (m.asked site v w) (.call (m.called site v w)) :=
      prompted.later (.asked m site v w) id False.elim
    obtain ⟨r, explained⟩ := finish_explained accepts annals' due asked entered
    exact ⟨r, _, explained⟩
  | wait live delay =>
    rw [if_neg (by simp [live])]
    exact ⟨_, _, entered, .waits rfl delay⟩

theorem Settles.explained (accepts : m.observer.Accepts) {c : Call} (h : m.Settles c w p w')
    (annals : Annals m.executor s w (c :: F))
    (prompted : Prompted m.executor s cancelAt w (.call c)) {visit : Visit σ ω} {site : Site}
    (explained : (History.task visit site (some c.ticket)).Explained m.executor s cancelAt w) :
    (History.task (visit.upTo p) site (some c.ticket)).Explained m.executor s cancelAt w' := by
  obtain ⟨r, reply, explains⟩ := explained
  obtain ⟨start, found, -⟩ := annals.ledger.entry c List.mem_cons_self
  have opened : r.ending = none := by
    obtain rfl := Option.some.inj (explains.record.symm.trans found)
    rfl
  cases h with
  | wait =>
    exact ⟨r, reply, explains.upTo _, .waits opened (explains.result.of_open opened).2⟩
  | finish due =>
    obtain ⟨r', explained⟩ := finish_explained accepts annals due prompted explains.toEntered
    exact ⟨r', reply, explained⟩
  | giveUp stopped =>
    have precedes := World.Precedes.close annals.ledger .dropped
    have closed := World.getElem?_calls_close w c.ticket c.ticket .dropped
    rw [if_pos rfl, explains.record] at closed
    refine ⟨_, reply, ⟨closed, precedes.replied explains.replied, explains.task, explains.input,
      explains.start⟩, .cancelled (explains.giveUp annals List.mem_cons_self opened) ?_⟩
    exact (prompted.place stopped).later precedes (Nat.le_refl _)

/-! ## What is started and resumed -/

/-- Joining branches may give up one of them. -/
theorem Joins.explained (joins : m.Joins w p q r w')
    (annals : Annals m.executor s w (p.calls ++ (q.calls ++ F))) {left right : History σ ω}
    (amongLeft : w.OpenAmong left.tickets p.calls) (amongRight : w.OpenAmong right.tickets q.calls)
    (explainedLeft : left.All (History.Explained m.executor s cancelAt w))
    (explainedRight : right.All (History.Explained m.executor s cancelAt w)) :
    left.All (History.Explained m.executor s cancelAt w') ∧
      right.All (History.Explained m.executor s cancelAt w') := by
  cases joins with
  | ok | left | right | wait =>
    exact ⟨explainedLeft.explained_same (.leave w), explainedRight.explained_same (.leave w)⟩
  | dropLeft =>
    have droppedLeft := explainedLeft.explained_drop amongLeft annals
    have keptRight := explainedRight.explained_closed amongRight annals.drop
    exact ⟨droppedLeft.explained_same (.leave _), keptRight.explained_same (.leave _)⟩
  | dropRight =>
    have keptLeft := explainedLeft.explained_closed amongLeft (Annals.drop (p := q) annals)
    have droppedRight := explainedRight.explained_drop (F := F) amongRight annals
    exact ⟨keptLeft.explained_same (.leave _), droppedRight.explained_same (.leave _)⟩

/-- The tasks of a plan that is started are explained. -/
theorem Starts.explained (accepts : m.observer.Accepts) (h : m.Starts plan v w p w')
    (annals : Annals m.executor s w F) (prompted : Prompted m.executor s cancelAt w q) :
    (m.recorded plan v w).All (History.Explained m.executor s cancelAt w') := by
  induction h generalizing F q with
  | task => exact History.all_task.2 ((m.calls _ _ _).explained accepts annals prompted)
  | named body leaves ih =>
    have explained := ih annals prompted
    exact History.all_named.2 ⟨trivial, explained.explained_same leaves.sameLog⟩
  | seqOk inner outer ihInner ihOuter =>
    obtain ⟨annals', -⟩ := inner.annals annals
    have explainedInner := ihInner annals prompted
    have explainedOuter := ihOuter annals' (inner.prompted annals prompted)
    simp only [recorded, inner.eq]
    refine History.all_seq.2 ⟨trivial, ?_, explainedOuter⟩
    exact explainedInner.explained_closed (inner.tracks annals).openAmong (outer.annals annals').2
  | seqError inner ih =>
    simp only [recorded, inner.eq]
    exact History.all_seq.2 ⟨trivial, ih annals prompted, History.all_explained_unreached⟩
  | seqWait first pending ih =>
    rw [first.recorded_wait pending]
    exact History.all_seq.2 ⟨trivial, ih annals prompted, History.all_explained_unreached⟩
  | @parEnds _ _ v w _ _ left ends ih =>
    have explained := ih (annals.same (.enter _ false)) prompted.enterNew
    simp only [recorded, left.eq, ends, if_true]
    exact History.all_par.2
      ⟨trivial, explained.explained_same (.leave _), History.all_explained_unreached⟩
  | @par _ _ _ w _ _ _ _ _ _ left notLeft right joins ihLeft ihRight =>
    have entered := annals.same (.enter _ false)
    have inside := prompted.enterNew
    obtain ⟨annals', -⟩ := left.annals entered
    obtain ⟨annals'', precedes⟩ := right.annals annals'
    have among := (left.tracks entered).openAmong
    have explainedLeft := (ihLeft entered inside).explained_later among precedes
      annals''.ledger fun c hc ↦ by simp [hc]
    have explainedRight := ihRight annals' (left.prompted entered inside)
    simp only [recorded, left.eq, notLeft, Bool.false_eq_true, if_false]
    refine History.all_par.2 ⟨trivial, ?_⟩
    exact joins.explained (annals''.perm (List.perm_append_comm_assoc _ _ _))
      (among.precedes precedes) (right.tracks annals').openAmong explainedLeft explainedRight

/-- The tasks of a process stay explained when it is resumed. -/
theorem explained_updated {settle : Call → World σ ω → Process × World σ ω}
    (accepts : m.observer.Accepts) (settling : m.Settling settle) (tracks : h.Tracks u p)
    (precedes : u.Precedes w) (resumes : m.Resumes settle p w p' w')
    (annals : Annals m.executor s w (p.calls ++ F)) (prompted : Prompted m.executor s cancelAt w p)
    (explained : h.All (History.Explained m.executor s cancelAt u)) :
    (m.updated settle h p w).All (History.Explained m.executor s cancelAt w') := by
  induction tracks generalizing w p' w' F with
  | done result closed =>
    cases resumes
    rw [updated_done]
    exact explained.explained_closed closed precedes
  | call goesOn entry =>
    cases resumes
    have now := explained.explained_later (p := .call _) entry precedes annals.ledger
      (List.subset_append_left _ _)
    refine History.all_task.2 ((settling _ _).explained accepts annals prompted ?_)
    exact History.all_task.1 now
  | named goesOn tracks ih =>
    obtain ⟨-, explainedBody⟩ := History.all_named.1 explained
    cases resumes with
    | named body leaves =>
      have explained := ih precedes body annals (prompted.later (.refl _) id id) explainedBody
      exact History.all_named.2 ⟨trivial, explained.explained_same leaves.sameLog⟩
  | @first _ _ _ q goesOn tracks ih =>
    obtain ⟨-, explainedInner, -⟩ := History.all_seq.1 explained
    have within : Prompted m.executor s cancelAt w q := prompted.later (.refl _) id id
    cases resumes with
    | seqOk inner outer =>
      obtain ⟨annals', -⟩ := inner.annals settling annals
      have tracksInner := tracks_updated settling tracks precedes inner annals
      have explainedInner := ih precedes inner annals within explainedInner
      simp only [updated, inner.eq]
      refine History.all_seq.2 ⟨trivial, ?_, ?_⟩
      · exact explainedInner.explained_closed tracksInner.openAmong (outer.annals annals').2
      · exact outer.explained accepts annals' (inner.prompted settling annals within)
    | seqError inner =>
      simp only [updated, inner.eq]
      exact History.all_seq.2 ⟨trivial, ih precedes inner annals within explainedInner,
        History.all_explained_unreached⟩
    | seqWait inner pending =>
      rw [inner.updated_wait pending]
      exact History.all_seq.2 ⟨trivial, ih precedes inner annals within explainedInner,
        History.all_explained_unreached⟩
  | second goesOn tracks pending closed ih =>
    obtain ⟨-, explainedInner, explainedOuter⟩ := History.all_seq.1 explained
    have later := precedes.trans (resumes.annals settling annals).2
    rw [updated_second tracks pending]
    exact History.all_seq.2 ⟨trivial, explainedInner.explained_closed closed later,
      ih precedes resumes annals prompted explainedOuter⟩
  | @par _ flag _ _ p q goesOn tracksLeft tracksRight ihLeft ihRight =>
    obtain ⟨-, explainedLeft, explainedRight⟩ := History.all_par.1 explained
    rw [Process.calls, List.append_assoc] at annals
    have entered := annals.same (.enter _ flag)
    have inside := precedes.trans (.of_sameLog (.enter _ flag))
    have promptedLeft : Prompted m.executor s cancelAt (w.enter flag) p :=
      prompted.enter .inl fun flagged ↦ .inr (.inl flagged)
    cases resumes with
    | parEnds left ends =>
      obtain ⟨e, rfl, -⟩ := m.ends_iff.1 ends
      obtain ⟨annals', first⟩ := left.annals settling entered
      have explainedLeft := ihLeft inside left entered promptedLeft explainedLeft
      have closedLeft := (tracks_updated settling tracksLeft inside left entered).openAmong
      have amongRight := tracksRight.openAmong.precedes (inside.trans first)
      have explainedRight := explainedRight.explained_later tracksRight.openAmong
        (inside.trans first) annals'.ledger (List.subset_append_left _ _)
      simp only [updated, left.eq, ends, if_true]
      refine History.all_par.2 ⟨trivial, ?_, ?_⟩
      · exact (explainedLeft.explained_closed closedLeft (Annals.drop (p := q) annals')).explained_same
          (.leave _)
      · exact (explainedRight.explained_drop (F := F) amongRight annals').explained_same (.leave _)
    | par left notLeft right joins =>
      obtain ⟨annals', first⟩ := left.annals settling entered
      have beside := annals'.perm (List.perm_append_comm_assoc _ _ _)
      obtain ⟨annals'', second⟩ := right.annals settling beside
      have promptedRight := prompted.right (left.prompted settling entered promptedLeft)
        (.trans (.of_sameLog (.enter w flag)) first)
      have amongLeft := (tracks_updated settling tracksLeft inside left entered).openAmong
      have explainedLeft := (ihLeft inside left entered promptedLeft explainedLeft).explained_later
        amongLeft second annals''.ledger fun c hc ↦ by simp [hc]
      have explainedRight := ihRight (inside.trans first) right beside promptedRight explainedRight
      have amongRight := tracks_updated settling tracksRight (inside.trans first) right beside
      simp only [updated, left.eq, notLeft, Bool.false_eq_true, if_false]
      refine History.all_par.2 ⟨trivial, ?_⟩
      exact joins.explained (annals''.perm (List.perm_append_comm_assoc _ _ _))
        (amongLeft.precedes second) amongRight.openAmong explainedLeft explainedRight

end Machine

end Taskflow
