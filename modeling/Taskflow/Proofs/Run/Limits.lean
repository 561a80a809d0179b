import Taskflow.Proofs.Run.Requests

/-!
# A limit on the time of each call

An executor may cut calls short that take too long.  Beside the run of the same plan without the
limit the run with it goes on in the same way as long as nothing is cut short: its process has the
same calls, but those that would take longer wake up earlier (`Process.within`).

What makes the two runs the same is known only at the end.  Every call whose own end comes after the
limit must have been given up before the limit is over (`World.Spared`).  The proof looks back from
there: a call that goes on at some instant ends at that instant at the earliest (`Since`), so at each
instant no call that goes on has used up its time.
-/

namespace Taskflow

variable {σ ω : Type}

/-! ## Calls that are cut short -/

/-- What becomes of a reply that must not take longer than `limit` milliseconds. -/
def Reply.within (limit : Nat) (r : Reply) : Reply :=
  if r.delay ≤ limit then r else ⟨limit, false, false, .error (.timedOut (.ofMillis limit)), true⟩

theorem Reply.delay_within_le (limit : Nat) (r : Reply) : (r.within limit).delay ≤ limit := by
  unfold within
  split
  · assumption
  · exact Nat.le_refl limit

namespace Executor

variable (e : Executor σ) (limit : Nat)

theorem respond_within (task : String) (input : Val) (s : σ) :
    (e.within limit).respond task input s =
      ((e.respond task input s).1.within limit, (e.respond task input s).2) := by
  unfold within Reply.within
  dsimp only
  split <;> rfl

/-- A limit cuts replies short and changes nothing else. -/
theorem replies_within (s : σ) (asked : List (String × Val)) :
    (e.within limit).replies s asked = (e.replies s asked).map (Reply.within limit) := by
  induction asked generalizing s with
  | nil => rfl
  | cons k rest ih => rw [replies, replies, respond_within, List.map_cons, ih]

end Executor

/-- The same call under a limit. -/
def Call.within (limit : Nat) (c : Call) : Call :=
  if c.reply.delay ≤ limit then c
  else { c with wake := c.wake - c.reply.delay + limit, reply := c.reply.within limit }

namespace Call

variable {limit : Nat} {c : Call}

theorem within_of_le (brief : c.reply.delay ≤ limit) : c.within limit = c := if_pos brief

theorem wake_within (long : limit < c.reply.delay) :
    (c.within limit).wake = c.wake - c.reply.delay + limit := by
  rw [within, if_neg (Nat.not_le.2 long)]

@[simp] theorem ticket_within (limit : Nat) (c : Call) : (c.within limit).ticket = c.ticket := by
  unfold within
  split <;> rfl

end Call

namespace Process

variable {limit : Nat} {p : Process}

/-- The same process under a limit. -/
def within (limit : Nat) : Process → Process
  | .done r => .done r
  | .call c => .call (c.within limit)
  | .named site body => .named site (body.within limit)
  | .seq outer inner => .seq outer (inner.within limit)
  | .par flag left right => .par flag (left.within limit) (right.within limit)

@[simp] theorem isDone_within (limit : Nat) (p : Process) : (p.within limit).isDone = p.isDone := by
  cases p <;> rfl

theorem within_of_isDone (done : p.isDone = true) : p.within limit = p := by
  rw [eq_done_of_isDone done, within]

@[simp] theorem result_within (limit : Nat) (p : Process) : (p.within limit).result = p.result := by
  cases p <;> rfl

@[simp] theorem drop_within (limit : Nat) (p : Process) (w : World σ ω) :
    (p.within limit).drop w = p.drop w := by
  induction p generalizing w <;> simp_all [within, drop]

theorem calls_within (limit : Nat) (p : Process) :
    (p.within limit).calls = p.calls.map (Call.within limit) := by
  induction p <;> simp_all [within, calls]

/-- A process wakes up at an instant at which a call is over, if none is over before. -/
theorem nextWake_eq {t : Nat} (waits : ∀ c ∈ p.calls, t ≤ c.wake) (ends : ∃ c ∈ p.calls, c.wake = t) :
    p.nextWake = some t := by
  obtain ⟨c, hc, rfl⟩ := ends
  cases wake : p.nextWake with
  | none =>
    rw [calls_eq_nil wake] at hc
    cases hc
  | some t =>
    obtain ⟨first, d, hd, rfl⟩ := nextWake_spec wake
    exact congrArg some (Nat.le_antisymm (first c hc) (waits d hd))

/-- A process under a limit wakes up when it would without, if no call is cut short by then. -/
theorem nextWake_within {t : Nat} (wake : p.nextWake = some t)
    (spared : ∀ c ∈ p.calls, limit < c.reply.delay →
      t < (c.within limit).wake ∧ (c.within limit).wake ≤ c.wake) :
    (p.within limit).nextWake = some t := by
  obtain ⟨waits, c, hc, rfl⟩ := nextWake_spec wake
  have same {d : Call} (hd : d ∈ p.calls) : d.within limit = d ∨ c.wake < (d.within limit).wake := by
    rcases Nat.lt_or_ge limit d.reply.delay with long | brief
    · exact .inr (spared d hd long).1
    · exact .inl (Call.within_of_le brief)
  apply nextWake_eq
  · rw [calls_within, List.forall_mem_map]
    intro d hd
    rcases same hd with same | later
    · rw [same]
      exact waits d hd
    · exact Nat.le_of_lt later
  · refine ⟨c.within limit, ?_, ?_⟩
    · rw [calls_within]
      exact List.mem_map_of_mem hc
    · rcases Nat.lt_or_ge limit c.reply.delay with long | brief
      · obtain ⟨later, sooner⟩ := spared c hc long
        omega
      · rw [Call.within_of_le brief]

/-- It does not wake up before an instant at which no call has been cut short. -/
theorem exists_nextWake_within {t c : Nat} (wake : p.nextWake = some t) (due : c ≤ t)
    (spared : ∀ d ∈ p.calls, limit < d.reply.delay → c ≤ (d.within limit).wake) :
    ∃ t', (p.within limit).nextWake = some t' ∧ c ≤ t' := by
  obtain ⟨waits, d, hd, -⟩ := nextWake_spec wake
  cases wake' : (p.within limit).nextWake with
  | none =>
    have mem := List.mem_map_of_mem (f := Call.within limit) hd
    rw [← calls_within, calls_eq_nil wake'] at mem
    cases mem
  | some t' =>
    obtain ⟨-, d', hd', rfl⟩ := nextWake_spec wake'
    rw [calls_within] at hd'
    obtain ⟨d, hd, rfl⟩ := List.mem_map.1 hd'
    refine ⟨_, rfl, ?_⟩
    rcases Nat.lt_or_ge limit d.reply.delay with long | brief
    · exact spared d hd long
    · rw [Call.within_of_le brief]
      exact Nat.le_trans due (waits d hd)

theorem nextWake_within_of_none (quiet : p.nextWake = none) : (p.within limit).nextWake = none := by
  cases wake : (p.within limit).nextWake with
  | none => rfl
  | some t =>
    obtain ⟨-, c, hc, -⟩ := nextWake_spec wake
    rw [calls_within, calls_eq_nil quiet] at hc
    cases hc

end Process

/-! ## One instant -/

/-- The machine with a limit on the time of each call. -/
def Machine.within (limit : Nat) (m : Machine σ ω) : Machine σ ω :=
  { m with executor := m.executor.within limit }

/-- Whether no call so far is cut short as soon as it begins. -/
def World.Admits (e : Executor σ) (s : σ) (limit : Nat) (w : World σ ω) : Prop :=
  limit = 0 → ∀ reply ∈ e.replies s w.made, reply.delay = 0

theorem World.Admits.earlier {e : Executor σ} {s : σ} {limit : Nat} {u w : World σ ω}
    (admits : w.Admits e s limit) (precedes : u.Precedes w) : u.Admits e s limit := by
  intro zero reply mem
  obtain ⟨i, replied⟩ := List.mem_iff_getElem?.1 mem
  exact admits zero reply (List.mem_of_getElem? (precedes.replied replied))

namespace Machine

variable {m : Machine σ ω} {limit : Nat} {s : σ} {u w w' : World σ ω} {plan : Plan} {v : Val}
  {p p' q r : Process} {F : List Call}

theorem Leaves.within {site : Site} (h : m.Leaves site p w q w') :
    (m.within limit).Leaves site (p.within limit) w (q.within limit) w' := by
  cases h with
  | ok =>
    rw [Process.within_of_isDone (isDone_observe _ _ _)]
    exact .ok (m := m.within limit)
  | error => exact .error
  | wait pending => exact .wait ((Process.isDone_within _ _).trans pending)

theorem ends_within (p : Process) : (m.within limit).ends (p.within limit) = m.ends p := by
  cases p <;> rfl

theorem Joins.within (h : m.Joins w p q r w') :
    (m.within limit).Joins w (p.within limit) (q.within limit) (r.within limit) w' := by
  cases h with
  | ok => exact .ok
  | left => exact .left
  | right => exact .right
  | dropLeft pending policy =>
    rw [← Process.drop_within limit]
    exact .dropLeft ((Process.isDone_within _ _).trans pending) policy
  | dropRight pending policy =>
    rw [← Process.drop_within limit]
    exact .dropRight ((Process.isDone_within _ _).trans pending) policy
  | wait pending notLeft notRight =>
    refine .wait ?_ ((ends_within _).trans notLeft) ((ends_within _).trans notRight)
    rwa [Process.isDone_within, Process.isDone_within]

theorem begin_of_live {site : Site} (live : w.stopped = false) : m.begin site v w =
    if (m.called site v w).reply.delay = 0 then m.finish (m.called site v w) (m.asked site v w)
    else (.call (m.called site v w), m.asked site v w) := by
  rw [begin, if_neg (by simp [live])]
  rfl

theorem called_within (site : Site) (v : Val) (w : World σ ω) :
    (m.within limit).called site v w = (m.called site v w).within limit := by
  rw [called, show (m.within limit).executor = m.executor.within limit from rfl,
    Executor.respond_within]
  unfold Call.within called
  dsimp only
  split
  next brief => rw [Reply.within, if_pos brief]
  next long => rw [Reply.within, if_neg long, Nat.add_sub_cancel]

theorem asked_within (site : Site) (v : Val) (w : World σ ω) :
    (m.within limit).asked site v w = m.asked site v w := by
  rw [asked, show (m.within limit).executor = m.executor.within limit from rfl,
    Executor.respond_within]
  rfl

/-- A call of a task begins in the same way unless it is cut short at once. -/
theorem begin_within {site : Site}
    (spared : limit = 0 → w.stopped = false → (m.called site v w).reply.delay = 0) :
    (m.within limit).begin site v w = ((m.begin site v w).1.within limit, (m.begin site v w).2) := by
  cases stopped : w.stopped with
  | true => simp [begin, stopped, Process.within]
  | false =>
    rw [begin_of_live stopped, begin_of_live stopped, called_within, asked_within]
    rcases Nat.lt_or_ge limit (m.called site v w).reply.delay with long | brief
    · have late : (m.called site v w).reply.delay ≠ 0 := by omega
      have cut : ((m.called site v w).within limit).reply.delay ≠ 0 := by
        rw [Call.within, if_neg (Nat.not_le.2 long)]
        dsimp only [Reply.within]
        rw [if_neg (Nat.not_le.2 long)]
        exact fun zero ↦ late (spared zero stopped)
      rw [if_neg late, if_neg cut]
      rfl
    · rw [Call.within_of_le brief]
      split
      · rw [Process.within_of_isDone (isDone_finish _ _)]
        rfl
      · rw [Process.within, Call.within_of_le brief]

/-- A plan is started in the same way unless a call is cut short at once. -/
theorem Starts.within (h : m.Starts plan v w p w') (annals : Annals m.executor s w F)
    (admits : w'.Admits m.executor s limit) :
    (m.within limit).Starts plan v w (p.within limit) w' := by
  induction h generalizing F with
  | @task site v w =>
    have begins : (m.within limit).begin site v w = _ := begin_within fun zero live ↦ by
      obtain ⟨-, -, -, replied⟩ := (annals.ask site v).ledger.entry _ List.mem_cons_self
      have made : (m.begin site v w).2.made = (m.asked site v w).made := by
        rw [begin_of_live live]
        split
        · exact made_finish _ _
        · rfl
      refine admits zero _ ?_
      rw [made]
      exact List.mem_of_getElem? replied
    have starts : (m.within limit).Starts (.task site) v w _ _ := .task
    rwa [begins] at starts
  | named _ leaves ih =>
    exact .named (ih annals (admits.earlier leaves.precedes)) leaves.within
  | seqOk inner outer ihInner ihOuter =>
    obtain ⟨annals', -⟩ := inner.annals annals
    have first := ihInner annals (admits.earlier (outer.annals annals').2)
    exact .seqOk first (ihOuter annals' admits)
  | seqError _ ih => exact .seqError (ih annals admits)
  | seqWait _ pending ih =>
    exact .seqWait (ih annals admits) ((Process.isDone_within _ _).trans pending)
  | parEnds _ ends ih =>
    have entered := annals.same (.enter _ false)
    exact .parEnds (ih entered (admits.earlier (.of_sameLog (.leave _))))
      ((ends_within _).trans ends)
  | par left notLeft right joins ihLeft ihRight =>
    have entered := annals.same (.enter _ false)
    obtain ⟨annals', -⟩ := left.annals entered
    obtain ⟨annals'', precedes⟩ := right.annals annals'
    have joined := joins.precedes (annals''.perm (List.perm_append_comm_assoc _ _ _))
    have second := admits.earlier joined
    exact .par (ihLeft entered (second.earlier precedes)) ((ends_within _).trans notLeft)
      (ihRight annals' second) joins.within

/-- So is a process resumed whose calls are settled in the same way. -/
theorem Resumes.within {settle settle' : Call → World σ ω → Process × World σ ω}
    (settling : m.Settling settle) (h : m.Resumes settle p w p' w')
    (annals : Annals m.executor s w (p.calls ++ F)) (admits : w'.Admits m.executor s limit)
    (settles : ∀ c ∈ p.calls, ∀ u : World σ ω, u.clock = w.clock →
      settle' (c.within limit) u = ((settle c u).1.within limit, (settle c u).2)) :
    (m.within limit).Resumes settle' (p.within limit) w (p'.within limit) w' := by
  induction h generalizing F with
  | done => exact .done
  | @call c w =>
    have resumes : (m.within limit).Resumes settle' (.call (c.within limit)) w _ _ := .call
    rwa [settles c List.mem_cons_self w rfl] at resumes
  | named _ leaves ih =>
    exact .named (ih annals (admits.earlier leaves.precedes) settles) leaves.within
  | seqOk inner outer ih =>
    obtain ⟨annals', -⟩ := inner.annals settling annals
    have first := ih annals (admits.earlier (outer.annals annals').2) settles
    exact .seqOk first (outer.within annals' admits)
  | seqError _ ih => exact .seqError (ih annals admits settles)
  | seqWait _ pending ih =>
    exact .seqWait (ih annals admits settles) ((Process.isDone_within _ _).trans pending)
  | @parEnds flag left right w l w₁ resumes ends ih =>
    rw [Process.calls, List.append_assoc] at annals
    obtain ⟨annals', -⟩ := resumes.annals settling (annals.same (.enter _ flag))
    obtain ⟨e, rfl, -⟩ := m.ends_iff.1 ends
    have dropped := (Annals.drop (p := right) annals').trans (.of_sameLog (.leave _))
    have first := ih (annals.same (.enter _ flag)) (admits.earlier dropped)
      fun c hc ↦ settles c (List.mem_append_left _ hc)
    have resumes : (m.within limit).Resumes settle' (.par flag (left.within limit)
      (right.within limit)) w _ _ := .parEnds first ((ends_within _).trans ends)
    rwa [Process.drop_within] at resumes
  | @par flag left right w l w₁ r w₂ q w₃ resumesLeft notLeft resumesRight joins ihLeft ihRight =>
    rw [Process.calls, List.append_assoc] at annals
    have entered := annals.same (.enter _ flag)
    obtain ⟨annals', -⟩ := resumesLeft.annals settling entered
    have beside := annals'.perm (List.perm_append_comm_assoc _ _ _)
    obtain ⟨annals'', precedes⟩ := resumesRight.annals settling beside
    have joined := joins.precedes (annals''.perm (List.perm_append_comm_assoc _ _ _))
    have second := admits.earlier joined
    have instant := resumesLeft.clock_eq settling.clock_eq
    refine .par (ihLeft entered (second.earlier precedes) fun c hc ↦ ?_)
      ((ends_within _).trans notLeft) (ihRight beside second fun c hc u now ↦ ?_) joins.within
    · exact settles c (List.mem_append_left _ hc)
    · exact settles c (List.mem_append_right _ hc) u (now.trans instant)

theorem settleStopped_within (c : Call) (w : World σ ω) :
    settleStopped (c.within limit) w =
      ((settleStopped c w).1.within limit, (settleStopped c w).2) := by
  unfold settleStopped
  rw [Call.ticket_within]
  split <;> rfl

/-- A call is settled in the same way unless it is cut short. -/
theorem settle_within {c : Call}
    (spared : limit < c.reply.delay →
      w.clock < (c.within limit).wake ∧ (c.within limit).wake ≤ c.wake) :
    (m.within limit).settle (c.within limit) w =
      ((m.settle c w).1.within limit, (m.settle c w).2) := by
  unfold settle
  split
  · exact settleStopped_within c w
  · rcases Nat.lt_or_ge limit c.reply.delay with long | brief
    · obtain ⟨later, sooner⟩ := spared long
      rw [settleDue, settleDue, if_neg (Nat.not_le.2 later), if_neg (by omega)]
      rfl
    · rw [Call.within_of_le brief]
      unfold settleDue
      split
      · rw [Process.within_of_isDone (isDone_finish _ _)]
        rfl
      · rw [Process.within, Call.within_of_le brief]

end Machine

/-! ## Looking back -/

/-- What has come of the world `u`, in which the calls `going` went on: none of them has ended before
the present instant of `u`. -/
structure Since (e : Executor σ) (s : σ) (u : World σ ω) (going : List Call) (w : World σ ω)
    (cs : List Call) : Prop where
  annals : Annals e s w cs
  precedes : u.Precedes w
  ends : ∀ c ∈ going, ∀ (r : CallRecord) t o,
    w.calls[c.ticket]? = some r → r.ending = some (t, o) → u.clock ≤ t

namespace Since

variable {e : Executor σ} {m : Machine σ ω} {s : σ} {u w w' : World σ ω} {c : Call}
  {going cs cs' : List Call} {p p' : Process}

theorem refl (annals : Annals e s w cs) : Since e s w cs w cs where
  annals := annals
  precedes := .refl w
  ends c hc r t o found ended := by
    obtain ⟨start, opened, -⟩ := annals.ledger.entry c hc
    cases found.symm.trans opened
    cases ended

theorem same (since : Since e s u going w cs) (same : w.SameLog w') : Since e s u going w' cs where
  annals := since.annals.same same
  precedes := since.precedes.trans (.of_sameLog same)
  ends c hc r t o found := since.ends c hc r t o (same.calls ▸ found)

/-- A call that ends now does not end earlier. -/
theorem close (since : Since e s u going w (c :: cs)) (o : Outcome) :
    Since e s u going (w.close c.ticket o) cs where
  annals := since.annals.close o
  precedes := since.precedes.trans (.close since.annals.ledger o)
  ends d hd r t o' found ended := by
    rw [World.getElem?_calls_close] at found
    split at found
    next =>
      obtain ⟨r', -, rfl⟩ := Option.map_eq_some_iff.1 found
      cases ended
      exact since.precedes.clock
    next => exact since.ends d hd r t o' found ended

theorem bookkeeping (m : Machine σ ω) (s : σ) (u : World σ ω) (going : List Call) :
    Bookkeeping m (Since m.executor s u going) where
  same := same
  perm since order := ⟨since.annals.perm order, since.precedes, since.ends⟩
  ask site input since := by
    refine ⟨since.annals.ask site input, since.precedes.trans (.asked m site input _), ?_⟩
    intro c hc r t o found ended
    rw [Machine.asked, List.getElem?_append] at found
    split at found
    next => exact since.ends c hc r t o found ended
    next =>
      obtain rfl := List.mem_singleton.1 (List.mem_of_getElem? found)
      cases ended
  finish since _ := since.close _
  giveUp since _ := since.close _

theorem advance (since : Since e s u going w cs) {t : Nat} (cancelled : Bool) (later : w.clock ≤ t)
    (waits : ∀ c ∈ cs, t ≤ c.wake) : Since e s u going { w with clock := t, cancelled } cs := by
  obtain ⟨annals, precedes⟩ := since.annals.advance cancelled later waits
  exact ⟨annals, since.precedes.trans precedes, since.ends⟩

theorem resumed {settle : Call → World σ ω → Process × World σ ω} (settling : m.Settling settle)
    (since : Since m.executor s u going w p.calls) (resumes : m.Resumes settle p w p' w') :
    Since m.executor s u going w' p'.calls := by
  rw [← List.append_nil p'.calls]
  refine resumes.keeps (bookkeeping m s u going) (fun {c w F} since ↦ ?_) ?_
  · exact (settling c w).keeps (bookkeeping m s u going) (fun since ↦ since.close _) since
  · rwa [List.append_nil]

theorem wake (since : Since e s u going w p.calls) {t : Nat} (wake : p.nextWake = some t) :
    Since e s u going { w with clock := t } p.calls := by
  obtain ⟨waits, c, hc, rfl⟩ := Process.nextWake_spec wake
  exact since.advance w.cancelled (since.annals.waits c hc) waits

theorem cancel (since : Since e s u going w p.calls) {t d : Nat} (wake : p.nextWake = some t)
    (later : w.clock ≤ d) (due : d ≤ t) :
    Since e s u going { w with clock := d, cancelled := true } p.calls :=
  since.advance true later fun c hc ↦ Nat.le_trans due ((Process.nextWake_spec wake).1 c hc)

theorem ticked (since : Since m.executor s u going w p.calls) :
    Since m.executor s u going (m.tick p w).2 (m.tick p w).1.calls :=
  (since.resumed m.settling_settle (m.resumes _ _ _)).resumed m.settling_settleStopped
    (m.resumes _ _ _)

/-- What is so when a run goes on from here is so when it ends. -/
theorem proceeded {cancelAt : Option Nat} (since : Since m.executor s u going w p.calls)
    (settled : m.Settled p) (before : ∀ c, cancelAt = some c → w.clock ≤ c) :
    Since m.executor s u going (m.proceed cancelAt p w).2 [] := by
  fun_induction Machine.proceed m cancelAt p w with
  | case1 cancelAt p w quiet =>
    rw [Process.calls_eq_nil quiet] at since
    exact since
  | case2 p w t wake _ r ih =>
    exact ih (since.wake wake).ticked (m.settled_sweep _ _) (by rintro c ⟨⟩)
  | case3 p w t wake _ c due _ r ih =>
    have cancelled := since.cancel wake (before c rfl) due
    exact ih (cancelled.resumed m.settling_settleStopped (m.resumes _ _ _)) (m.settled_sweep _ _)
      (by rintro c' ⟨⟩)
  | case4 p w t wake _ c late r ih =>
    refine ih (since.wake wake).ticked (m.settled_sweep _ _) fun c' same ↦ ?_
    cases same
    rw [Machine.clock_tick]
    exact Nat.le_of_lt (Nat.not_le.1 late)

end Since

/-! ## Runs -/

/-- Whether every call that takes longer than the limit was given up before the limit was over. -/
def World.Spared (e : Executor σ) (s : σ) (limit : Nat) (w : World σ ω) : Prop :=
  ∀ x ∈ w.calls.zip (e.replies s w.made), ∀ ending ∈ x.1.ending,
    x.2.delay ≤ limit ∨ ending.1 < x.1.start + limit

theorem World.Spared.delay_le_or_lt {e : Executor σ} {s : σ} {limit : Nat} {w : World σ ω}
    (spared : w.Spared e s limit) {i : Nat} {r : CallRecord} {reply : Reply} {t : Nat} {o : Outcome}
    (found : w.calls[i]? = some r) (replied : (e.replies s w.made)[i]? = some reply)
    (ended : r.ending = some (t, o)) : reply.delay ≤ limit ∨ t < r.start + limit :=
  spared (r, reply) (List.mem_of_getElem? (List.getElem?_zip_eq_some.2 ⟨found, replied⟩)) _ ended

namespace Machine

variable {m : Machine σ ω} {limit : Nat} {s : σ} {u w W : World σ ω} {p : Process}

/-- If every call is spared then none is cut short as soon as it begins. -/
theorem admits_of_spared (annals : Annals m.executor s W []) (spared : W.Spared m.executor s limit) :
    W.Admits m.executor s limit := by
  rintro rfl reply mem
  obtain ⟨i, replied⟩ := List.mem_iff_getElem?.1 mem
  have less : i < W.calls.length := by simpa using (List.getElem?_eq_some_iff.1 replied).1
  obtain ⟨⟨t, o⟩, ended⟩ := Option.isSome_iff_exists.1
    (annals.ledger.ending_isSome (List.getElem_mem less))
  have began := ((annals.past _ (List.getElem_mem less)).2 t o ended).1
  rcases spared.delay_le_or_lt (List.getElem?_eq_getElem less) replied ended with brief | early
  · exact Nat.le_zero.1 brief
  · exact (Nat.not_lt.2 began early).elim

/-- No call that goes on has used up its time. -/
theorem lt_wake_of_spared (annals : Annals m.executor s w p.calls)
    (since : Since m.executor s w p.calls W []) (spared : W.Spared m.executor s limit) {c : Call}
    (hc : c ∈ p.calls) (long : limit < c.reply.delay) :
    w.clock < (c.within limit).wake ∧ (c.within limit).wake ≤ c.wake := by
  obtain ⟨start, found, wake, replied⟩ := annals.ledger.entry c hc
  obtain ⟨ending, kept, -⟩ := since.precedes.kept found
  obtain ⟨⟨t, o⟩, ended⟩ := Option.isSome_iff_exists.1
    (since.annals.ledger.ending_isSome (List.mem_of_getElem? kept))
  have later := since.ends c hc _ t o kept ended
  have early := spared.delay_le_or_lt kept (since.precedes.replied replied) ended
  rw [Call.wake_within long]
  dsimp only at early
  omega

theorem sweep_within (annals : Annals m.executor s w p.calls)
    (admits : (m.sweep p w).2.Admits m.executor s limit) :
    (m.within limit).sweep (p.within limit) w =
      ((m.sweep p w).1.within limit, (m.sweep p w).2) := by
  refine ((m.resumes settleStopped p w).within m.settling_settleStopped (F := []) ?_ admits
    fun c _ u _ ↦ settleStopped_within c u).eq
  rwa [List.append_nil]

theorem tick_within (annals : Annals m.executor s w p.calls)
    (admits : (m.tick p w).2.Admits m.executor s limit)
    (spared : ∀ c ∈ p.calls, limit < c.reply.delay →
      w.clock < (c.within limit).wake ∧ (c.within limit).wake ≤ c.wake) :
    (m.within limit).tick (p.within limit) w = ((m.tick p w).1.within limit, (m.tick p w).2) := by
  have settled := (Since.refl annals).resumed m.settling_settle (m.resumes m.settle p w)
  have swept := (Since.refl settled.annals).resumed m.settling_settleStopped (m.resumes _ _ _)
  have resumes : (m.within limit).Resumes (m.within limit).settle (p.within limit) w _ _ :=
    (m.resumes m.settle p w).within m.settling_settle (F := []) (by rwa [List.append_nil])
      (admits.earlier swept.precedes)
      fun c hc u now ↦ settle_within fun long ↦ now ▸ spared c hc long
  rw [tick, resumes.eq]
  exact sweep_within settled.annals admits

/-- An instant at which calls are over is the same under the limit if the run that goes on from there
spares all calls. -/
theorem tick_within_of_spared {cancelAt : Option Nat} {t : Nat}
    (annals : Annals m.executor s w p.calls) (wake : p.nextWake = some t)
    (before : ∀ c, cancelAt = some c → t < c)
    (spared : (m.proceed cancelAt (m.tick p { w with clock := t }).1
      (m.tick p { w with clock := t }).2).2.Spared m.executor s limit) :
    (p.within limit).nextWake = some t ∧
      (m.within limit).tick (p.within limit) { w with clock := t } =
        ((m.tick p { w with clock := t }).1.within limit, (m.tick p { w with clock := t }).2) := by
  have woken := ((Since.refl annals).wake wake).annals
  have after : ∀ c, cancelAt = some c → (m.tick p { w with clock := t }).2.clock ≤ c := by
    intro c at'
    rw [clock_tick]
    exact Nat.le_of_lt (before c at')
  have ticked := (Since.refl woken).ticked
  have ended := ticked.proceeded (m.settled_sweep _ _) after
  have rest := (Since.refl ticked.annals).proceeded (m.settled_sweep _ _) after
  have admits := (admits_of_spared ended.annals spared).earlier rest.precedes
  have calls (c : Call) (hc : c ∈ p.calls) (long : limit < c.reply.delay) :=
    lt_wake_of_spared woken ended spared hc long
  exact ⟨Process.nextWake_within wake calls, tick_within woken admits calls⟩

/-- From instant to instant both machines go on together. -/
theorem proceed_within {cancelAt : Option Nat} (annals : Annals m.executor s w p.calls)
    (settled : m.Settled p) (before : ∀ c, cancelAt = some c → w.clock ≤ c)
    (spared : (m.proceed cancelAt p w).2.Spared m.executor s limit) :
    (m.within limit).proceed cancelAt (p.within limit) w = m.proceed cancelAt p w := by
  fun_induction proceed m cancelAt p w with
  | case1 cancelAt p w quiet =>
    rw [(m.within limit).proceed_of_quiet _ _ (Process.nextWake_within_of_none quiet),
      Process.result_within]
  | case2 p w t wake _ r ih =>
    have never : ∀ c, none = some c → t < c := by
      rintro c ⟨⟩
    obtain ⟨wake', ticks⟩ := tick_within_of_spared annals wake never spared
    rw [(m.within limit).proceed_of_wake w wake' never, ticks]
    exact ih ((Since.refl annals).wake wake).ticked.annals (m.settled_sweep _ _) (by rintro c ⟨⟩)
      spared
  | case3 p w t wake _ c due _ r ih =>
    have cancelled := ((Since.refl annals).cancel wake (before c rfl) due).annals
    have swept := (Since.refl cancelled).resumed m.settling_settleStopped (m.resumes _ _ _)
    have never : ∀ c', none = some c' → r.2.clock ≤ c' := by
      rintro c' ⟨⟩
    have ended := swept.proceeded (m.settled_sweep _ _) never
    have rest := (Since.refl swept.annals).proceeded (m.settled_sweep _ _) never
    have admits := (admits_of_spared ended.annals spared).earlier rest.precedes
    obtain ⟨t', wake', due'⟩ := Process.exists_nextWake_within wake due
      fun d hd long ↦ Nat.le_of_lt (lt_wake_of_spared cancelled ended spared hd long).1
    rw [(m.within limit).proceed_of_cancel w wake' due', sweep_within cancelled admits]
    exact ih swept.annals (m.settled_sweep _ _) (by rintro c' ⟨⟩) spared
  | case4 p w t wake _ c late r ih =>
    have sooner : ∀ c', some c = some c' → t < c' := by
      rintro c' ⟨⟩
      exact Nat.not_le.1 late
    obtain ⟨wake', ticks⟩ := tick_within_of_spared annals wake sooner spared
    rw [(m.within limit).proceed_of_wake w wake' sooner, ticks]
    refine ih ((Since.refl annals).wake wake).ticked.annals (m.settled_sweep _ _) ?_ spared
    intro c' same
    rw [clock_tick]
    exact Nat.le_of_lt (sooner c' same)

/-- A limit changes nothing in a run in which every call that takes longer is given up before. -/
theorem run_within {plan : Plan} {input : Val} {o : ω} {clock : Nat} {cancelAfter : Option Nat}
    (spared : (m.run plan input s o clock cancelAfter).2.Spared m.executor s limit) :
    (m.within limit).run plan input s o clock cancelAfter =
      m.run plan input s o clock cancelAfter := by
  rw [run_eq_proceed] at spared ⊢
  have started := ((m.starts plan input (initial s o clock cancelAfter)).annals
    (.initial m s o clock cancelAfter)).1
  rw [List.append_nil] at started
  have swept := (Since.refl started).resumed m.settling_settleStopped (m.resumes _ _ _)
  have before : ∀ c, cancelAt clock cancelAfter = some c →
      (m.begun plan input s o clock cancelAfter).2.clock ≤ c := by
    intro c at'
    rw [clock_begun]
    exact le_of_cancelAt at'
  have ended := swept.proceeded (m.settled_sweep _ _) before
  have rest := (Since.refl swept.annals).proceeded (m.settled_sweep _ _) before
  have admits := (admits_of_spared ended.annals spared).earlier rest.precedes
  have starts := (m.starts plan input (initial s o clock cancelAfter)).within
    (.initial m s o clock cancelAfter) (admits.earlier swept.precedes)
  have begins : (m.within limit).begun plan input s o clock cancelAfter =
      ((m.begun plan input s o clock cancelAfter).1.within limit,
        (m.begun plan input s o clock cancelAfter).2) := by
    rw [begun, starts.eq]
    exact sweep_within started admits
  rw [run_eq_proceed, begins]
  exact proceed_within swept.annals (m.settled_sweep _ _) before spared

end Machine

end Taskflow
