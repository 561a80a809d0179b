import Taskflow.Proofs.Run.Explanations

/-!
# How evaluations end

What becomes of a task is explained by the log (`History.Explained`).  What is not a task ends as its
parts do (`History.Composed`), unless an observer refuses its value.

So a value is made of the values of all parts (`History.All.ok_of_composed`), and an error is that
of a task (`History.All.error_of_composed`).  The history of a run has all this
(`History.Accounts.of_run`).
-/

namespace Taskflow

variable {σ ω : Type}

/-! ## What is made of tasks -/

/-- How a product has ended whose branches have ended like this. -/
def Policy.joined (policy : Policy) :
    Option (Except RunError Val) → Option (Except RunError Val) → Option (Except RunError Val)
  | some (.ok a), some (.ok b) => some (.ok (.pair a b))
  | some (.error e), some _ => some (.error e)
  | some (.ok _), some (.error e) => some (.error e)
  | some (.error e), none | none, some (.error e) =>
    if policy = .failFast then some (.error e) else none
  | _, _ => none

namespace Policy

variable {policy : Policy} {l r : Option (Except RunError Val)}

theorem joined_eq_ok {v : Val} (h : policy.joined l r = some (.ok v)) :
    ∃ a b, l = some (.ok a) ∧ r = some (.ok b) := by
  unfold joined at h
  split at h
  next a b => exact ⟨a, b, rfl, rfl⟩
  all_goals first | cases h | (split at h <;> cases h)

theorem joined_eq_error {e : RunError} (h : policy.joined l r = some (.error e)) :
    l = some (.error e) ∨ r = some (.error e) := by
  unfold joined at h
  split at h
  case h_2 => exact .inl (by simpa using h)
  case h_3 => exact .inr (by simpa using h)
  case h_4 => exact .inl (by split at h <;> simp_all)
  case h_5 => exact .inr (by split at h <;> simp_all)
  all_goals cases h

end Policy

/-- How an evaluation ends that is not that of a task, if no value is refused. -/
def History.Composed (m : Machine σ ω) : History σ ω → Prop
  | .unreached _ | .task .. => True
  | .named visit _ body => visit.result = body.result?
  | .seq visit outer inner =>
    outer.visit? = none ∧ visit.result = inner.result? ∧ (∀ x, inner.result? ≠ some (.ok x)) ∨
      (∃ x, inner.result? = some (.ok x)) ∧ visit.result = outer.result?
  | .par visit left right => visit.result = m.policy.joined left.result? right.result?

/-- A composition ends as its first stage does if that yields no value. -/
theorem History.Composed.seq_of_inner {m : Machine σ ω} {visit : Visit σ ω} {outer : Plan}
    {inner : History σ ω} (result : inner.result? = visit.result)
    (notOk : ∀ x, visit.result ≠ some (.ok x)) :
    Composed m (.seq visit (.unreached outer) inner) :=
  .inl ⟨rfl, result.symm, result ▸ notOk⟩

namespace Machine

variable {m : Machine σ ω} {u w w' : World σ ω} {plan : Plan} {v : Val} {p p' q r : Process}
  {h : History σ ω} {settle : Call → World σ ω → Process × World σ ω}

theorem Starts.result?_eq (h : m.Starts plan v w p w') :
    (m.recorded plan v w).result? = p.result? := by
  rw [History.result?, visit?_recorded, h.eq]
  rfl

theorem Resumes.result?_eq (resumes : m.Resumes settle p w p' w') (tracks : h.Tracks u p) :
    (m.updated settle h p w).result? = p'.result? := by
  obtain ⟨visit, visited⟩ := tracks.visited
  rw [History.result?, visit?_updated tracks resumes, visited]
  rfl

theorem Leaves.result?_eq (accepts : m.observer.Accepts) {site : Site}
    (h : m.Leaves site p w q w') : q.result? = p.result? := by
  cases h with
  | ok => rw [observe_of_accepts accepts]
  | error => rfl
  | wait pending => exact (Process.result?_of_pending pending).symm

theorem joined_of_ends (ends : m.ends p = true) (r : Option (Except RunError Val)) :
    m.policy.joined p.result? r = p.result? := by
  obtain ⟨e, rfl, policy⟩ := m.ends_iff.1 ends
  cases r with
  | none => simp [Policy.joined, Process.result?, policy]
  | some => rfl

theorem Joins.result?_eq (h : m.Joins w p q r w') :
    r.result? = m.policy.joined p.result? q.result? := by
  cases h with
  | ok | right => rfl
  | @left e r => cases r <;> rfl
  | dropLeft pending policy =>
    rw [Process.result?_of_pending pending]
    simp [Policy.joined, Process.result?, policy]
  | dropRight pending policy =>
    rw [Process.result?_of_pending pending]
    simp [Policy.joined, Process.result?, policy]
  | wait pending notLeft notRight =>
    cases p with
    | done l =>
      cases q with
      | done => cases pending
      | _ => cases l <;> simp_all [Policy.joined, Process.result?, ends]
    | _ =>
      cases q with
      | done r => cases r <;> simp_all [Policy.joined, Process.result?, ends]
      | _ => rfl

/-- What is started is composed. -/
theorem Starts.composed (accepts : m.observer.Accepts) (h : m.Starts plan v w p w') :
    (m.recorded plan v w).All (History.Composed m) := by
  have start := h.eq
  induction h with
  | task => exact History.all_task.2 trivial
  | named body leaves ih =>
    rw [recorded, start]
    refine History.all_named.2 ⟨?_, ih body.eq⟩
    exact (leaves.result?_eq accepts).trans body.result?_eq.symm
  | seqOk inner outer ihInner ihOuter =>
    simp only [recorded, inner.eq, start]
    refine History.all_seq.2 ⟨.inr ⟨⟨_, inner.result?_eq⟩, outer.result?_eq.symm⟩, ?_, ?_⟩
    · exact ihInner inner.eq
    · exact ihOuter outer.eq
  | seqError inner ih =>
    simp only [recorded, inner.eq, start]
    exact History.all_seq.2 ⟨.seq_of_inner inner.result?_eq (by simp [Process.result?]), ih inner.eq,
      History.all_unreached.2 trivial⟩
  | seqWait first pending ih =>
    have result := first.result?_eq.trans (Process.result?_of_pending pending)
    rw [first.recorded_wait pending]
    exact History.all_seq.2 ⟨.seq_of_inner result (by simp), ih first.eq,
      History.all_unreached.2 trivial⟩
  | parEnds left ends ih =>
    simp only [recorded, left.eq, ends, if_true, start]
    refine History.all_par.2 ⟨?_, ih left.eq, History.all_unreached.2 trivial⟩
    rw [History.Composed, left.result?_eq, joined_of_ends ends]
  | par left notLeft right joins ihLeft ihRight =>
    simp only [recorded, left.eq, notLeft, Bool.false_eq_true, if_false, start]
    refine History.all_par.2 ⟨?_, ihLeft left.eq, ihRight right.eq⟩
    rw [History.Composed, left.result?_eq, right.result?_eq]
    exact joins.result?_eq

/-- What is resumed stays composed. -/
theorem composed_updated (accepts : m.observer.Accepts) (tracks : h.Tracks u p)
    (resumes : m.Resumes settle p w p' w') (composed : h.All (History.Composed m)) :
    (m.updated settle h p w).All (History.Composed m) := by
  have resume := resumes.eq
  induction tracks generalizing w p' w' with
  | done =>
    rw [updated_done]
    exact composed
  | call => exact History.all_task.2 trivial
  | named _ tracks ih =>
    obtain ⟨-, composedBody⟩ := History.all_named.1 composed
    cases resumes with
    | named body leaves =>
      rw [updated, resume]
      refine History.all_named.2 ⟨?_, ih body composedBody body.eq⟩
      exact (leaves.result?_eq accepts).trans (body.result?_eq tracks).symm
  | first _ tracks ih =>
    obtain ⟨-, composedInner, -⟩ := History.all_seq.1 composed
    cases resumes with
    | seqOk inner outer =>
      have composedInner := ih inner composedInner inner.eq
      simp only [updated, inner.eq, resume]
      exact History.all_seq.2 ⟨.inr ⟨⟨_, inner.result?_eq tracks⟩, outer.result?_eq.symm⟩,
        composedInner, outer.composed accepts⟩
    | seqError inner =>
      have composedInner := ih inner composedInner inner.eq
      simp only [updated, inner.eq, resume]
      refine History.all_seq.2 ⟨.seq_of_inner (inner.result?_eq tracks) ?_, composedInner,
        History.all_unreached.2 trivial⟩
      simp [Visit.upTo, Process.result?]
    | seqWait inner pending =>
      have composedInner := ih inner composedInner inner.eq
      have result := (inner.result?_eq tracks).trans (Process.result?_of_pending pending)
      rw [inner.updated_wait pending]
      refine History.all_seq.2 ⟨.seq_of_inner result ?_, composedInner,
        History.all_unreached.2 trivial⟩
      simp [Visit.upTo, Process.result?]
  | second _ tracks pending _ ih =>
    obtain ⟨node, composedInner, composedOuter⟩ := History.all_seq.1 composed
    rw [updated_second tracks pending, resume]
    refine History.all_seq.2 ⟨.inr ⟨?_, (resumes.result?_eq tracks).symm⟩, composedInner,
      ih resumes composedOuter resume⟩
    rcases node with ⟨absent, -⟩ | ⟨ok, -⟩
    · obtain ⟨visit, visited⟩ := tracks.visited
      cases absent.symm.trans visited
    · exact ok
  | par _ tracksLeft tracksRight ihLeft ihRight =>
    obtain ⟨-, composedLeft, composedRight⟩ := History.all_par.1 composed
    cases resumes with
    | parEnds left ends =>
      have composedLeft := ihLeft left composedLeft left.eq
      simp only [updated, left.eq, ends, if_true, resume]
      refine History.all_par.2 ⟨?_, composedLeft, composedRight⟩
      rw [History.Composed, left.result?_eq tracksLeft, joined_of_ends ends]
      rfl
    | par left notLeft right joins =>
      have composedLeft := ihLeft left composedLeft left.eq
      have composedRight := ihRight right composedRight right.eq
      simp only [updated, left.eq, notLeft, Bool.false_eq_true, if_false, resume]
      refine History.all_par.2 ⟨?_, composedLeft, composedRight⟩
      rw [History.Composed, left.result?_eq tracksLeft, right.result?_eq tracksRight]
      exact joins.result?_eq

end Machine

namespace History

variable {m : Machine σ ω} {h : History σ ω}

/-- A value is made of the values of all parts. -/
theorem All.ok_of_composed (composed : h.All (Composed m)) {v : Val}
    (ok : h.result? = some (.ok v)) : ∀ g ∈ h.parts, ∃ x, g.result? = some (.ok x) := by
  induction h generalizing v with
  | unreached => cases ok
  | task =>
    intro g hg
    obtain rfl := List.mem_singleton.1 hg
    exact ⟨v, ok⟩
  | named visit site body ih =>
    obtain ⟨node, composedBody⟩ := all_named.1 composed
    intro g hg
    rcases List.mem_cons.1 hg with rfl | hg
    · exact ⟨v, ok⟩
    · exact ih composedBody (node.symm.trans ok) g hg
  | seq visit outer inner ihOuter ihInner =>
    obtain ⟨node, composedInner, composedOuter⟩ := all_seq.1 composed
    rcases node with ⟨-, same, notOk⟩ | ⟨⟨x, okInner⟩, same⟩
    · exact (notOk v (same.symm.trans ok)).elim
    intro g hg
    rcases List.mem_cons.1 hg with rfl | hg
    · exact ⟨v, ok⟩
    · rcases List.mem_append.1 hg with hg | hg
      · exact ihInner composedInner okInner g hg
      · exact ihOuter composedOuter (same.symm.trans ok) g hg
  | par visit left right ihLeft ihRight =>
    obtain ⟨node, composedLeft, composedRight⟩ := all_par.1 composed
    obtain ⟨a, b, okLeft, okRight⟩ := Policy.joined_eq_ok (node.symm.trans ok)
    intro g hg
    rcases List.mem_cons.1 hg with rfl | hg
    · exact ⟨v, ok⟩
    · rcases List.mem_append.1 hg with hg | hg
      · exact ihLeft composedLeft okLeft g hg
      · exact ihRight composedRight okRight g hg

/-- An error is that of a task. -/
theorem All.error_of_composed (composed : h.All (Composed m)) {e : RunError}
    (error : h.result? = some (.error e)) : ∃ visit site ticket,
      .task visit site ticket ∈ h.parts ∧ visit.result = some (.error e) := by
  induction h with
  | unreached => cases error
  | task visit site ticket => exact ⟨visit, site, ticket, List.mem_cons_self, error⟩
  | named visit site body ih =>
    obtain ⟨node, composedBody⟩ := all_named.1 composed
    obtain ⟨visit, site, ticket, part, result⟩ := ih composedBody (node.symm.trans error)
    exact ⟨visit, site, ticket, List.mem_cons_of_mem _ part, result⟩
  | seq visit outer inner ihOuter ihInner =>
    obtain ⟨node, composedInner, composedOuter⟩ := all_seq.1 composed
    rcases node with ⟨-, same, -⟩ | ⟨-, same⟩
    · obtain ⟨visit, site, ticket, part, result⟩ := ihInner composedInner (same.symm.trans error)
      exact ⟨visit, site, ticket, List.mem_cons_of_mem _ (List.mem_append_left _ part), result⟩
    · obtain ⟨visit, site, ticket, part, result⟩ := ihOuter composedOuter (same.symm.trans error)
      exact ⟨visit, site, ticket, List.mem_cons_of_mem _ (List.mem_append_right _ part), result⟩
  | par visit left right ihLeft ihRight =>
    obtain ⟨node, composedLeft, composedRight⟩ := all_par.1 composed
    rcases Policy.joined_eq_error (node.symm.trans error) with failed | failed
    · obtain ⟨visit, site, ticket, part, result⟩ := ihLeft composedLeft failed
      exact ⟨visit, site, ticket, List.mem_cons_of_mem _ (List.mem_append_left _ part), result⟩
    · obtain ⟨visit, site, ticket, part, result⟩ := ihRight composedRight failed
      exact ⟨visit, site, ticket, List.mem_cons_of_mem _ (List.mem_append_right _ part), result⟩

/-- Every call is made for a task. -/
theorem exists_task_of_mem_tickets {i : Nat} (hi : i ∈ h.tickets) :
    ∃ visit site, .task visit site (some i) ∈ h.parts := by
  induction h with
  | unreached => cases hi
  | task visit site ticket =>
    obtain rfl := Option.mem_toList.1 hi
    exact ⟨visit, site, List.mem_cons_self⟩
  | named visit site body ih =>
    obtain ⟨visit, site, part⟩ := ih hi
    exact ⟨visit, site, List.mem_cons_of_mem _ part⟩
  | seq visit outer inner ihOuter ihInner =>
    rcases List.mem_append.1 hi with hi | hi
    · obtain ⟨visit, site, part⟩ := ihInner hi
      exact ⟨visit, site, List.mem_cons_of_mem _ (List.mem_append_left _ part)⟩
    · obtain ⟨visit, site, part⟩ := ihOuter hi
      exact ⟨visit, site, List.mem_cons_of_mem _ (List.mem_append_right _ part)⟩
  | par visit left right ihLeft ihRight =>
    rcases List.mem_append.1 hi with hi | hi
    · obtain ⟨visit, site, part⟩ := ihLeft hi
      exact ⟨visit, site, List.mem_cons_of_mem _ (List.mem_append_left _ part)⟩
    · obtain ⟨visit, site, part⟩ := ihRight hi
      exact ⟨visit, site, List.mem_cons_of_mem _ (List.mem_append_right _ part)⟩

/-! ## Runs -/

/-- What a history has to do with its process and its world if no value is refused. -/
structure Accounts (m : Machine σ ω) (s : σ) (cancelAt : Option Nat) (plan : Plan)
    (h : History σ ω) (p : Process) (w : World σ ω) : Prop extends Recounts m s plan h p w where
  prompted : Prompted m.executor s cancelAt w p
  explained : h.All (Explained m.executor s cancelAt w)
  composed : h.All (Composed m)

namespace Accounts

variable {s : σ} {cancelAt : Option Nat} {plan : Plan} {p p' : Process} {w w' : World σ ω}
  {settle : Call → World σ ω → Process × World σ ω}

theorem updated (accounts : h.Accounts m s cancelAt plan p w) (accepts : m.observer.Accepts)
    (settling : m.Settling settle) (resumes : m.Resumes settle p w p' w') :
    (m.updated settle h p w).Accounts m s cancelAt plan p' w' := by
  have annals : Annals m.executor s w (p.calls ++ []) := by
    rw [List.append_nil]
    exact accounts.annals
  refine ⟨accounts.toRecounts.updated settling resumes, ?_, ?_, ?_⟩
  · exact resumes.prompted settling annals accounts.prompted
  · exact Machine.explained_updated accepts settling accounts.tracks (.refl w) resumes annals
      accounts.prompted accounts.explained
  · exact Machine.composed_updated accepts accounts.tracks resumes accounts.composed

/-- Time goes on, and the caller may cancel the run. -/
theorem advance (accounts : h.Accounts m s cancelAt plan p w) {t : Nat} (cancelled : Bool)
    (later : w.clock ≤ t) (waits : ∀ c ∈ p.calls, t ≤ c.wake)
    (asked : cancelled = true → w.cancelled = true ∨ cancelAt = some t) :
    h.Accounts m s cancelAt plan p { w with clock := t, cancelled } := by
  have precedes := (accounts.annals.advance cancelled later waits).2
  refine ⟨accounts.toRecounts.advance cancelled later waits, ⟨fun stopped ↦ ?_, fun flagged ↦ ?_⟩,
    accounts.explained.explained_of_calls_eq precedes rfl, accounts.composed⟩
  · rcases Bool.or_eq_true_iff.1 stopped with caller | scope
    · rcases asked caller with before | at'
      · exact (accounts.prompted.place (by simp [World.stopped, before])).later precedes later
      · exact .caller at' (Nat.le_refl t)
    · exact (accounts.prompted.place (Bool.or_eq_true_iff.2 (.inr scope))).later precedes later
  · exact (accounts.prompted.flags flagged).later precedes later

theorem wake (accounts : h.Accounts m s cancelAt plan p w) {t : Nat} (wake : p.nextWake = some t) :
    h.Accounts m s cancelAt plan p { w with clock := t } := by
  obtain ⟨waits, c, hc, rfl⟩ := Process.nextWake_spec wake
  exact accounts.advance w.cancelled (accounts.annals.waits c hc) waits .inl

theorem cancel (accounts : h.Accounts m s cancelAt plan p w) {t c : Nat}
    (wake : p.nextWake = some t) (at' : cancelAt = some c) (later : w.clock ≤ c) (due : c ≤ t) :
    h.Accounts m s cancelAt plan p { w with clock := c, cancelled := true } := by
  refine accounts.advance true later (fun d hd ↦ ?_) fun _ ↦ .inr at'
  exact Nat.le_trans due ((Process.nextWake_spec wake).1 d hd)

theorem of_starts (accepts : m.observer.Accepts) {v : Val} {q : Process}
    (starts : m.Starts plan v w p w') (annals : Annals m.executor s w [])
    (prompted : Prompted m.executor s cancelAt w q) (none : w.calls = []) :
    (m.recorded plan v w).Accounts m s cancelAt plan p w' where
  toRecounts := .of_starts starts annals none
  prompted := starts.prompted annals prompted
  explained := starts.explained accepts annals prompted
  composed := starts.composed accepts

/-- A run begins in a cancelled scope if its caller asks for that. -/
theorem prompted_initial (m : Machine σ ω) (s : σ) (o : ω) (clock : Nat) (cancelAfter : Option Nat) :
    Prompted m.executor s (cancelAfter.map (clock + ·))
      (Machine.initial s o clock cancelAfter) (.done (.error .cancelled)) := by
  refine ⟨fun stopped ↦ ?_, False.elim⟩
  obtain rfl : cancelAfter = some 0 := by simpa [World.stopped, Machine.initial] using stopped
  exact .caller rfl (Nat.le_refl clock)

/-- The history of a run accounts for it. -/
theorem of_run (accepts : m.observer.Accepts) (s : σ) (plan : Plan) (input : Val) (o : ω)
    (clock : Nat) (cancelAfter : Option Nat) :
    (m.history plan input s o clock cancelAfter).Accounts m s (cancelAfter.map (clock + ·)) plan
      (.done (m.run plan input s o clock cancelAfter).1)
      (m.run plan input s o clock cancelAfter).2 := by
  have initial := Annals.initial m s o clock cancelAfter
  have prompted := prompted_initial m s o clock cancelAfter
  let accounts (h : History σ ω) (p : Process) (w : World σ ω) : Prop :=
    h.Accounts m s (cancelAfter.map (clock + ·)) plan p w
  refine Machine.history_spec (I := accounts) (J := accounts) ?_ ?_ ?_ ?_
  · intro p w starts
    exact of_starts accepts starts initial prompted rfl
  · intro h p w p' w' accounts resumes
    exact accounts.updated accepts m.settling_settleStopped resumes
  · intro h p w t p' w' accounts wake resumes
    exact (accounts.wake wake).updated accepts m.settling_settle resumes
  · intro h p w t c accounts wake at' later due
    exact accounts.cancel wake at' later due

end Accounts

end History

end Taskflow
