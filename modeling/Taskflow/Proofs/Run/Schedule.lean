import Taskflow.Proofs.Grammar.Programs
import Taskflow.Proofs.Run.Ledger
import Taskflow.Proofs.Run.Quiet
import Taskflow.Proofs.Run.Sequential

/-!
# Runs do not depend on the schedule

If the reply to a call is a function of its task and its input, and nothing is cancelled, then a run
does what the program does when it is read in sequence.  How long calls take, and so the order in
which they end, makes no difference to a product that waits for both branches.  A product that fails
fast may give a branch up, but only if it fails, and only what fails in the other kind of run is
ever to blame.

The invariant of both policies is `Advances`: what a process will come to and the calls that it has
yet to make, together with those made so far, stay what they were.
-/

namespace Taskflow

variable {σ : Type}

/-- An executor whose replies depend on the task and the input alone, and cancel nothing. -/
def Executor.Stateless (e : Executor σ) (delay : String → Val → Nat) (answers : Answers) : Prop :=
  ∀ task input s,
    (e.respond task input s).1 = ⟨delay task input, false, false, answers task input, false⟩

theorem Executor.Stateless.quiet {e : Executor σ} {delay : String → Val → Nat} {answers : Answers}
    (stateless : e.Stateless delay answers) : e.Quiet := by
  intro task input s
  rw [stateless task input s]
  exact ⟨rfl, rfl⟩

/-! ## What a run may come to -/

/-- Whether a run may come to `r` where `r'` was to be expected: a run that fails fast may fail in
another way. -/
def Policy.Agrees (policy : Policy) (r r' : Except RunError Val) : Prop :=
  r = r' ∨ policy = .failFast ∧ r.isOk = false ∧ r'.isOk = false

namespace Policy.Agrees

variable {policy : Policy} {r r' r'' l l' : Except RunError Val}

theorem refl (policy : Policy) (r : Except RunError Val) : policy.Agrees r r := .inl rfl

theorem isOk_eq (h : policy.Agrees r r') : r.isOk = r'.isOk := by
  rcases h with rfl | ⟨-, h, h'⟩
  · rfl
  · rw [h, h']

theorem trans (h : policy.Agrees r r') (h' : policy.Agrees r' r'') : policy.Agrees r r'' := by
  rcases h with rfl | ⟨fast, failed, failed'⟩
  · exact h'
  · exact .inr ⟨fast, failed, h'.isOk_eq ▸ failed'⟩

/-- Whatever is expected to be a value is that value. -/
theorem eq_ok {v : Val} (h : policy.Agrees (.ok v) r) : r = .ok v := by
  rcases h with rfl | ⟨-, failed, -⟩
  · rfl
  · cases failed

theorem ok_iff (h : policy.Agrees r r') (v : Val) : r = .ok v ↔ r' = .ok v := by
  constructor
  · rintro rfl
    exact h.eq_ok
  · rintro rfl
    rcases h with rfl | ⟨-, -, failed⟩
    · rfl
    · cases failed

theorem bind (h : policy.Agrees r r') (f : Val → Except RunError Val) :
    policy.Agrees (r.bind f) (r'.bind f) := by
  rcases h with rfl | ⟨fast, failed, failed'⟩
  · exact .inl rfl
  · cases r with
    | ok => cases failed
    | error =>
      cases r' with
      | ok => cases failed'
      | error => exact .inr ⟨fast, rfl, rfl⟩

theorem isOk_both (r r' : Except RunError Val) : (both r r').isOk = (r.isOk && r'.isOk) := by
  cases r <;> cases r' <;> rfl

theorem both (hl : policy.Agrees l l') (hr : policy.Agrees r r') :
    policy.Agrees (both l r) (both l' r') := by
  rcases hl with rfl | ⟨fast, failed, failed'⟩
  · rcases hr with rfl | ⟨fast, failed, failed'⟩
    · exact .inl rfl
    · exact .inr ⟨fast, by simp [isOk_both, failed], by simp [isOk_both, failed']⟩
  · exact .inr ⟨fast, by simp [isOk_both, failed], by simp [isOk_both, failed']⟩

end Policy.Agrees

/-! ## Who is to blame -/

/-- Whether an error is that of a call that was made and that its task answers with a failure. -/
def Blames (answers : Answers) (made : List (String × Val)) (e : RunError) : Prop :=
  ∃ task input failure, (task, input) ∈ made ∧ answers task input = .error failure ∧
    e = .task task input failure

/-- Whether the replies of a process are the answers of its tasks, and its errors are those of calls
that were made. -/
def Process.Sound (answers : Answers) (made : List (String × Val)) : Process → Prop
  | .done (.ok _) => True
  | .done (.error e) => Blames answers made e
  | .call c => c.reply.result = answers c.site.name c.input ∧ c.reply.cutShort = false ∧
      (c.site.name, c.input) ∈ made
  | .named _ body => Sound answers made body
  | .seq _ inner => Sound answers made inner
  | .par _ left right => Sound answers made left ∧ Sound answers made right

theorem Process.Sound.mono {answers : Answers} {made made' : List (String × Val)}
    (more : made ⊆ made') {p : Process} (sound : p.Sound answers made) : p.Sound answers made' := by
  induction p with
  | done r =>
    cases r with
    | ok => trivial
    | error e =>
      obtain ⟨task, input, failure, mem, rest⟩ := sound
      exact ⟨task, input, failure, more mem, rest⟩
  | call c => exact ⟨sound.1, sound.2.1, more sound.2.2⟩
  | named _ _ ih => exact ih sound
  | seq _ _ ih => exact ih sound
  | par _ _ _ ihLeft ihRight => exact ⟨ihLeft sound.1, ihRight sound.2⟩

/-- A call that was made and comes to what its task answers is sound. -/
theorem sound_answers_call {answers : Answers} {made : List (String × Val)} {task : String}
    {input : Val} (mem : (task, input) ∈ made) :
    (Process.done (answers.call task input)).Sound answers made := by
  rw [Answers.call]
  cases answer : answers task input with
  | ok v => trivial
  | error f => exact ⟨task, input, f, mem, answer, rfl⟩

/-! ## The invariant -/

/-- How a process goes on from a point where `made` was called, `promise` was to be expected and
`todo` was yet to be called. -/
structure Advances (policy : Policy) (answers : Answers) (promise : Except RunError Val)
    (todo made : List (String × Val)) (p : Process) (made' : List (String × Val)) : Prop where
  value : policy.Agrees (p.value answers) promise
  /-- what is not given up is called -/
  calls : policy = .waitAll ∨ promise.isOk = true →
    (made' ++ p.demands answers).Perm (made ++ todo)
  only : ∀ k, k ∈ made' ∨ k ∈ p.demands answers → k ∈ made ∨ k ∈ todo
  more : made ⊆ made'
  sound : p.Sound answers made'

namespace Advances

variable {policy : Policy} {answers : Answers} {r r' : Except RunError Val}
  {todo todo' made made' made'' : List (String × Val)} {p : Process} {e : RunError} {x : Val}
  {outer : Plan}

/-- A process that stands still. -/
theorem refl (policy : Policy) (sound : p.Sound answers made) :
    Advances policy answers (p.value answers) (p.demands answers) made p made where
  value := .refl _ _
  calls _ := List.Perm.refl _
  only _ h := h
  more := List.Subset.refl _
  sound := sound

theorem trans {q : Process} (first : Advances policy answers r todo made p made')
    (second : Advances policy answers (p.value answers) (p.demands answers) made' q made'') :
    Advances policy answers r todo made q made'' where
  value := second.value.trans first.value
  calls may := by
    have may' : policy = .waitAll ∨ (p.value answers).isOk = true := by
      rwa [first.value.isOk_eq]
    exact (second.calls may').trans (first.calls may)
  only k h := first.only k (second.only k h)
  more := List.Subset.trans first.more second.more
  sound := second.sound

/-- The first of two stages is over, and the second one starts on its value. -/
theorem seqOk (first : Advances policy answers r todo made (.done (.ok x)) made')
    (second : Advances policy answers (outer.evaluate answers x) (outer.demands answers x) made' p
      made'') :
    Advances policy answers (r.bind (outer.evaluate answers))
      (todo ++ onValue r (outer.demands answers)) made p made'' := by
  obtain rfl := first.value.eq_ok
  refine ⟨second.value, fun may ↦ ?_, fun k h ↦ ?_, ?_, second.sound⟩
  · refine (second.calls may).trans ?_
    have earlier := first.calls (.inr rfl)
    rw [Process.demands, List.append_nil] at earlier
    rw [← List.append_assoc]
    exact earlier.append_right _
  · rcases second.only k h with mem | mem
    · rcases first.only k (.inl mem) with mem | mem
      · exact .inl mem
      · exact .inr (List.mem_append_left _ mem)
    · exact .inr (List.mem_append_right _ mem)
  · exact List.Subset.trans first.more second.more

/-- The first of two stages goes on. -/
theorem seqWait (first : Advances policy answers r todo made p made') :
    Advances policy answers (r.bind (outer.evaluate answers))
      (todo ++ onValue r (outer.demands answers)) made (.seq outer p) made' where
  value := first.value.bind _
  calls may := by
    rw [Process.demands, ← List.append_assoc, ← List.append_assoc]
    cases r with
    | ok y =>
      rw [(first.value.ok_iff y).2 rfl]
      exact (first.calls (.inr rfl)).append_right _
    | error e =>
      have failed : onValue (p.value answers) (outer.demands answers) = [] := by
        cases value : p.value answers with
        | ok y => cases (first.value.ok_iff y).1 value
        | error => rfl
      rw [failed, onValue, List.append_nil, List.append_nil]
      exact first.calls may
  only k h := by
    have stages : k ∈ made' ∨ k ∈ p.demands answers →
        k ∈ made ∨ k ∈ todo ++ onValue r (outer.demands answers) :=
      fun h ↦ (first.only k h).imp_right (List.mem_append_left _)
    rcases h with mem | mem
    · exact stages (.inl mem)
    · rcases List.mem_append.1 mem with mem | mem
      · exact stages (.inr mem)
      · cases value : p.value answers with
        | ok y =>
          rw [value] at mem
          rw [(first.value.ok_iff y).1 value]
          exact .inr (List.mem_append_right _ mem)
        | error =>
          rw [value] at mem
          simp [onValue] at mem
  more := first.more
  sound := first.sound

/-- The first of two stages has failed. -/
theorem seqError (first : Advances policy answers r todo made (.done (.error e)) made') :
    Advances policy answers (r.bind (outer.evaluate answers))
      (todo ++ onValue r (outer.demands answers)) made (.done (.error e)) made' := by
  obtain ⟨value, calls, only, more, sound⟩ := first.seqWait
  exact ⟨value, calls, only, more, sound⟩

/-- A functor name makes no difference. -/
theorem named {q : Process} {site : Site} (body : Advances policy answers r todo made p made')
    (same : q = p ∨ q = .named site p) : Advances policy answers r todo made q made' := by
  rcases same with rfl | rfl
  · exact body
  · exact ⟨body.value, body.calls, body.only, body.more, body.sound⟩

/-- Both branches of a product go on, the right one from where the left one has got to. -/
theorem par {left right : Process} (flag : Bool)
    (first : Advances policy answers r todo made left made')
    (second : Advances policy answers r' todo' made' right made'') :
    Advances policy answers (both r r') (todo ++ todo') made (.par flag left right) made'' where
  value := first.value.both second.value
  calls may := by
    have may' : policy = .waitAll ∨ r.isOk = true ∧ r'.isOk = true := by
      simpa [Policy.Agrees.isOk_both] using may
    have h := first.calls (may'.imp_right And.left)
    have h' := second.calls (may'.imp_right And.right)
    rw [List.perm_iff_count] at h h' ⊢
    intro k
    have count := h k
    have count' := h' k
    simp only [Process.demands, List.count_append] at count count' ⊢
    omega
  only k h := by
    have earlier := first.only k
    have later := second.only k
    rw [Process.demands, List.mem_append] at h
    rw [List.mem_append]
    tauto
  more := List.Subset.trans first.more second.more
  sound := ⟨first.sound.mono second.more, second.sound⟩

/-- A product that fails fast ends with the error of its left branch. -/
theorem parEnds (fast : policy = .failFast)
    (first : Advances policy answers r todo made (.done (.error e)) made')
    (r' : Except RunError Val) (todo' : List (String × Val)) :
    Advances policy answers (both r r') (todo ++ todo') made (.done (.error e)) made' where
  value := by
    have failed : r.isOk = false := first.value.isOk_eq.symm
    exact .inr ⟨fast, rfl, by simp [Policy.Agrees.isOk_both, failed]⟩
  calls may := by
    have failed : r.isOk = false := first.value.isOk_eq.symm
    simp [fast, Policy.Agrees.isOk_both, failed] at may
  only k h := (first.only k h).imp_right (List.mem_append_left _)
  more := first.more
  sound := first.sound

/-- A product ends, or goes on, with what its branches have come to. -/
theorem join {ω : Type} {m : Machine σ ω} {w w' : World σ ω} {left right q : Process}
    (first : Advances m.policy answers r todo made left made')
    (second : Advances m.policy answers r' todo' made' right made'')
    (joins : m.Joins w left right q w') :
    Advances m.policy answers (both r r') (todo ++ todo') made q made'' := by
  obtain ⟨value, calls, only, more, sound⟩ := first.par w.flag second
  -- a branch that fails makes the product fail, whatever the other one comes to
  have failed : ∀ {e}, m.policy = .failFast → (Process.done (.error e)).Sound answers made'' →
      (both r r').isOk = false →
      Advances m.policy answers (both r r') (todo ++ todo') made (.done (.error e)) made'' := by
    intro e fast blames fails
    refine ⟨.inr ⟨fast, rfl, fails⟩, ?_, ?_, more, blames⟩
    · rw [fast, fails]
      rintro (may | may) <;> cases may
    · rintro k (mem | mem)
      · exact only k (.inl mem)
      · simp [Process.demands] at mem
  cases joins with
  | ok => exact ⟨value, calls, only, more, trivial⟩
  | left => exact ⟨value, calls, only, more, sound.1⟩
  | right => exact ⟨value, calls, only, more, sound.2⟩
  | dropLeft _ fast =>
    have fails : r'.isOk = false := second.value.isOk_eq.symm
    exact failed fast sound.2 (by simp [Policy.Agrees.isOk_both, fails])
  | dropRight _ fast =>
    have fails : r.isOk = false := first.value.isOk_eq.symm
    exact failed fast sound.1 (by simp [Policy.Agrees.isOk_both, fails])
  | wait => exact ⟨value, calls, only, more, sound⟩

end Advances

namespace Machine

variable {m : Machine σ Unit} {w w' : World σ Unit} {answers : Answers}
  {delay : String → Val → Nat} {p p' : Process}

/-- The end of a sound call is the answer of its task. -/
theorem Plain.finish_advances (plain : m.Plain) (going : w.stopped = false) {c : Call}
    (quiet : (Process.call c).Quiet) (sound : (Process.call c).Sound answers w.made) :
    Advances m.policy answers (answers.call c.site.name c.input) [] w.made (m.finish c w).1
      (m.finish c w).2.made := by
  have result : c.result = answers.call c.site.name c.input := by
    rw [Call.result, sound.1, Answers.call]
  rw [plain.finish_eq quiet going, World.made_close, result]
  exact .refl m.policy (sound_answers_call sound.2.2)

theorem Plain.begin_advances (plain : m.Plain) (stateless : m.executor.Stateless delay answers)
    (going : w.stopped = false) (site : Site) (v : Val) :
    Advances m.policy answers (answers.call site.name v) [(site.name, v)] w.made
      (m.begin site v w).1 (m.begin site v w).2.made := by
  have reply := stateless site.name v w.executor
  have made := m.made_asked site v w
  have sound : (Process.call (m.called site v w)).Sound answers (m.asked site v w).made := by
    refine ⟨?_, ?_, ?_⟩
    · simp [called, reply]
    · simp [called, reply]
    · simp [called, made]
  -- asking for the reply is what moves the call from `todo` to `made`
  have asked : ∀ {q made'}, Advances m.policy answers (answers.call site.name v) []
      (m.asked site v w).made q made' →
      Advances m.policy answers (answers.call site.name v) [(site.name, v)] w.made q made' := by
    intro q made' h
    refine ⟨h.value, fun may ↦ ?_, fun k mem ↦ ?_, ?_, h.sound⟩
    · rw [← made]
      simpa using h.calls may
    · have := h.only k mem
      rw [made, List.mem_append] at this
      simpa [or_assoc] using this
    · refine List.Subset.trans ?_ h.more
      rw [made]
      exact List.subset_append_left _ _
  unfold begin
  rw [going, if_neg Bool.false_ne_true]
  dsimp only
  split
  · have going' : (m.asked site v w).stopped = false := going
    exact asked (plain.finish_advances (c := m.called site v w) going' (plain.quiet _ _ _) sound)
  · exact asked (.refl m.policy sound)

/-- A plan that is started goes on to what it comes to in sequence. -/
theorem Starts.advances (plain : m.Plain) (stateless : m.executor.Stateless delay answers)
    {plan : Plan} {v : Val} (h : m.Starts plan v w p w') (going : w.stopped = false) :
    Advances m.policy answers (plan.evaluate answers v) (plan.demands answers v) w.made p
      w'.made := by
  induction h with
  | task => exact plain.begin_advances stateless going _ _
  | named _ leaves ih =>
    obtain ⟨rfl, same⟩ := plain.eq_of_leaves leaves
    exact (ih going).named (same.imp_right And.right)
  | seqOk first _ ihInner ihOuter =>
    have going' := (first.scopes plain.quiet).2.stopped_eq.trans going
    exact (ihInner going).seqOk (ihOuter going')
  | seqError _ ih => exact (ih going).seqError
  | seqWait _ _ ih => exact (ih going).seqWait
  | parEnds _ ends ih =>
    obtain ⟨e, rfl, fast⟩ := m.ends_iff.1 ends
    exact (ih (by simpa using going)).parEnds fast _ _
  | par first _ _ joins ihLeft ihRight =>
    have inside : (World.enter _ false).stopped = false := (World.stopped_enter _).trans going
    have going' := (first.scopes plain.quiet).2.stopped_eq.trans inside
    rw [joins.made_eq]
    exact (ihLeft inside).join (ihRight going') joins

/-- A process that is resumed goes on to what it would have come to, if settling a call does not
change that. -/
theorem Resumes.advances (plain : m.Plain) (stateless : m.executor.Stateless delay answers)
    {settle : Call → World σ Unit → Process × World σ Unit}
    (scopes : ∀ {c} w, (Process.call c).Quiet → (settle c w).1.Quiet ∧ w.SameScopes (settle c w).2)
    (settled : ∀ {c w}, w.stopped = false → (Process.call c).Quiet →
      (Process.call c).Sound answers w.made →
      Advances m.policy answers (answers.call c.site.name c.input) [] w.made (settle c w).1
        (settle c w).2.made)
    (h : m.Resumes settle p w p' w') (going : w.stopped = false) (quiet : p.Quiet)
    (sound : p.Sound answers w.made) :
    Advances m.policy answers (p.value answers) (p.demands answers) w.made p' w'.made := by
  induction h with
  | done => exact .refl _ sound
  | call => exact settled going quiet sound
  | named _ leaves ih =>
    obtain ⟨rfl, same⟩ := plain.eq_of_leaves leaves
    exact (ih going quiet sound).named (same.imp_right And.right)
  | seqOk first starts ih =>
    have going' := (first.scopes plain.quiet scopes quiet).2.stopped_eq.trans going
    exact (ih going quiet sound).seqOk (starts.advances plain stateless going')
  | seqError _ ih => exact (ih going quiet sound).seqError
  | seqWait _ _ ih => exact (ih going quiet sound).seqWait
  | parEnds _ ends ih =>
    obtain ⟨e, rfl, fast⟩ := m.ends_iff.1 ends
    obtain ⟨rfl, quietLeft, -⟩ := quiet
    have left := ih (by simpa using going) quietLeft sound.1
    rw [World.made_leave, Process.made_drop]
    exact left.parEnds fast _ _
  | par first _ _ joins ihLeft ihRight =>
    obtain ⟨rfl, quietLeft, quietRight⟩ := quiet
    have inside : (World.enter _ false).stopped = false := (World.stopped_enter _).trans going
    have left := ihLeft inside quietLeft sound.1
    have going' := (first.scopes plain.quiet scopes quietLeft).2.stopped_eq.trans inside
    rw [joins.made_eq]
    exact left.join (ihRight going' quietRight (sound.2.mono left.more)) joins

theorem Plain.settleDue_advances (plain : m.Plain) {c : Call} (going : w.stopped = false)
    (quiet : (Process.call c).Quiet) (sound : (Process.call c).Sound answers w.made) :
    Advances m.policy answers (answers.call c.site.name c.input) [] w.made (m.settleDue c w).1
      (m.settleDue c w).2.made := by
  unfold settleDue
  split
  · exact plain.finish_advances going quiet sound
  · exact .refl m.policy sound

/-- A run of a plain machine gets to what its plan comes to in sequence. -/
theorem Plain.run_advances (plain : m.Plain) (stateless : m.executor.Stateless delay answers)
    (plan : Plan) (input : Val) (s : σ) (clock : Nat) :
    Advances m.policy answers (plan.evaluate answers input) (plan.demands answers input) []
      (.done (m.run plan input s () clock none).1) (m.run plan input s () clock none).2.made := by
  refine And.left (run_spec_of_quiet plain.quiet
    (I := fun p w ↦ Advances m.policy answers (plan.evaluate answers input)
      (plan.demands answers input) [] p w.made) ?_ ?_)
  · exact fun starts ↦ starts.advances plain stateless rfl
  · intro p w t p' w' h quiet going _ resumes
    have later := resumes.advances plain stateless settleDue_scopes plain.settleDue_advances going
      quiet h.sound
    exact h.trans later

end Machine

/-! ## The log of a run that waits -/

/-- How a call ends whose task is left to answer. -/
def Answers.outcome (answers : Answers) (task : String) (input : Val) : Outcome :=
  match answers task input with
  | .ok _ => .ok
  | .error _ => .failed

theorem Executor.Stateless.replies_eq {e : Executor σ} {delay : String → Val → Nat}
    {answers : Answers} (stateless : e.Stateless delay answers) (s : σ)
    (asked : List (String × Val)) :
    e.replies s asked =
      asked.map fun k ↦ ⟨delay k.1 k.2, false, false, answers k.1 k.2, false⟩ := by
  induction asked generalizing s with
  | nil => rfl
  | cons k rest ih => rw [Executor.replies, stateless, ih, List.map_cons]

/-- Whether every call that has ended has ended with the answer of its task. -/
def World.Honest {ω : Type} (answers : Answers) (w : World σ ω) : Prop :=
  ∀ (i : Nat) (r : CallRecord) (t : Nat) (o : Outcome), w.calls[i]? = some r →
    r.ending = some (t, o) → o = answers.outcome r.task r.input

/-- A run that waits closes the entry of a call with the answer of its task, and no other way. -/
theorem bookkeeping_honest {m : Machine σ Unit} {delay : String → Val → Nat} {answers : Answers}
    (stateless : m.executor.Stateless delay answers) (waits : m.policy = .waitAll) (s : σ) :
    Bookkeeping m fun w cs ↦ Ledger m.executor s w cs ∧ w.Honest answers where
  same := by
    rintro w w' cs ⟨ledger, honest⟩ same
    refine ⟨ledger.same same, fun i r t o found ↦ honest i r t o ?_⟩
    rwa [← same.calls]
  perm := fun ⟨ledger, honest⟩ order ↦ ⟨ledger.perm order, honest⟩
  ask site input := by
    rintro ⟨ledger, honest⟩
    refine ⟨ledger.ask site input, fun i r t o found ended ↦ ?_⟩
    rw [Machine.asked, List.getElem?_append] at found
    split at found
    · exact honest i r t o found ended
    · rw [List.getElem?_singleton] at found
      split at found
      · cases found
        cases ended
      · cases found
  finish := by
    rintro w c cs ⟨ledger, honest⟩ -
    obtain ⟨start, entry, -, reply⟩ := ledger.entry c List.mem_cons_self
    refine ⟨ledger.close _, fun i r t o found ended ↦ ?_⟩
    rw [World.getElem?_calls_close] at found
    split at found
    next same =>
      subst same
      rw [entry] at found
      cases found
      cases ended
      rw [stateless.replies_eq, List.getElem?_map, World.made, List.getElem?_map, entry] at reply
      simp only [Option.map_some, Option.some.injEq] at reply
      show c.outcome = answers.outcome c.site.name c.input
      rw [Call.outcome, ← reply, Answers.outcome]
      cases answers c.site.name c.input <;> rfl
    next => exact honest i r t o found ended
  giveUp _ fast := by
    rw [waits] at fast
    cases fast

/-- When a run that waits ends, every call has ended with the answer of its task. -/
theorem ending_of_waitAll {m : Machine σ Unit} {delay : String → Val → Nat} {answers : Answers}
    (stateless : m.executor.Stateless delay answers) (waits : m.policy = .waitAll) (plan : Plan)
    (input : Val) (s : σ) (clock : Nat) {r : CallRecord}
    (hr : r ∈ (m.run plan input s () clock none).2.calls) :
    ∃ t, r.ending = some (t, answers.outcome r.task r.input) := by
  have books := bookkeeping_honest stateless waits s
  have ends : Ledger m.executor s (m.run plan input s () clock none).2 [] ∧
      (m.run plan input s () clock none).2.Honest answers := by
    refine And.left (Machine.run_spec_of_quiet stateless.quiet
      (I := fun p w ↦ Ledger m.executor s w p.calls ∧ w.Honest answers) ?_ ?_)
    · intro p w starts
      have kept := starts.keeps books (F := []) ⟨Ledger.initial m s () clock none, ?_⟩
      · rwa [List.append_nil] at kept
      · intro i r t o found
        simp [Machine.initial] at found
    · rintro p w t p' w' ⟨ledger, honest⟩ - - - resumes
      have kept := resumes.keeps books (F := []) (Machine.settleDue_keeps books) ?_
      · rwa [List.append_nil] at kept
      · rw [List.append_nil]
        exact ⟨⟨ledger.executor, ledger.distinct, ledger.entry, ledger.owner⟩, honest⟩
  obtain ⟨ending, ended⟩ := Option.isSome_iff_exists.1 (ends.1.ending_isSome hr)
  obtain ⟨i, found⟩ := List.mem_iff_getElem?.1 hr
  obtain ⟨t, o⟩ := ending
  exact ⟨t, ends.2 i r t o found ended ▸ ended⟩

/-! ## Both policies -/

/-- What can be said of two runs of a program on the same input, a patient one that waits for both
branches of a product and a hasty one that fails fast, without regard to any delay. -/
structure ScheduleFree (p : Program) (answers : Answers) (input : Val)
    (patient hasty : Except RunError Val × World σ Unit) : Prop where
  /-- the patient run comes to what the program comes to in sequence -/
  value : ∀ r, p.Evaluates answers p.root input r ↔ patient.1 = r
  /-- it gives no call up -/
  complete : ∀ c ∈ patient.2.calls, ∃ t o, c.ending = some (t, o) ∧ o ≠ .dropped
  /-- the hasty run comes to a value if and only if the program does, and to the same one -/
  ok : ∀ v, p.Evaluates answers p.root input (.ok v) ↔ hasty.1 = .ok v
  /-- then it makes the same calls -/
  calls : ∀ v, hasty.1 = .ok v → hasty.2.made.Perm patient.2.made
  /-- if the program fails, the hasty run blames a call that fails in the patient run too -/
  error : ∀ failed, p.Evaluates answers p.root input (.error failed) →
    ∃ c ∈ patient.2.calls, ∃ t failure, c.ending = some (t, .failed) ∧
      answers c.task c.input = .error failure ∧ hasty.1 = .error (.task c.task c.input failure)

/-- If replies depend on the task and the input alone, then the runs of a parsed program do not
depend on the schedule. -/
theorem scheduleFree_of_stateless {text : String} {p : Program}
    (parsed : Program.parse text = .ok p) {e : Executor σ} {delay : String → Val → Nat}
    {answers : Answers} (stateless : e.Stateless delay answers) (input : Val) (s : σ)
    (clock : Nat) :
    ScheduleFree p answers input
      ((Machine.mk e .blind .waitAll).run p.plan input s () clock none)
      ((Machine.mk e .blind .failFast).run p.plan input s () clock none) := by
  let patient := (Machine.mk e .blind .waitAll).run p.plan input s () clock none
  let hasty := (Machine.mk e .blind .failFast).run p.plan input s () clock none
  have resolves := (Program.wellFormed_of_parse parsed).resolves_root
  have plain : ∀ policy, (Machine.mk e .blind policy).Plain := fun _ ↦ ⟨rfl, stateless.quiet⟩
  have waits := (plain .waitAll).run_advances stateless p.plan input s clock
  have fast := (plain .failFast).run_advances stateless p.plan input s clock
  have called : patient.2.made.Perm (p.plan.demands answers input) := by
    simpa [Process.demands] using waits.calls (.inl rfl)
  have patient_eq : patient.1 = p.plan.evaluate answers input := by
    rcases waits.value with same | ⟨⟨⟩, -⟩
    exact same
  refine ⟨fun r ↦ ?_, fun c hc ↦ ?_, fun v ↦ ?_, fun v ok ↦ ?_, fun failed evaluates ↦ ?_⟩
  · rw [resolves.evaluates_iff, patient_eq]
  · obtain ⟨t, ended⟩ := ending_of_waitAll stateless rfl p.plan input s clock hc
    refine ⟨t, _, ended, ?_⟩
    rw [Answers.outcome]
    split <;> simp
  · rw [resolves.evaluates_iff]
    exact (fast.value.ok_iff v).symm
  · have expected : (p.plan.evaluate answers input).isOk = true := by
      rw [(fast.value.ok_iff v).1 ok]
      rfl
    have perm := fast.calls (.inr expected)
    rw [Process.demands, List.append_nil, List.nil_append] at perm
    exact perm.trans called.symm
  · have fails : hasty.1.isOk = (p.plan.evaluate answers input).isOk := fast.value.isOk_eq
    have blames : (Process.done hasty.1).Sound answers hasty.2.made := fast.sound
    rw [resolves.evaluates_iff.1 evaluates] at fails
    cases ends : hasty.1 with
    | ok v =>
      rw [ends] at fails
      cases fails
    | error e' =>
      rw [ends] at blames
      obtain ⟨task, input', failure, mem, answer, rfl⟩ := blames
      have expected : (task, input') ∈ p.plan.demands answers input := by
        simpa using fast.only _ (.inl mem)
      obtain ⟨c, hc, same⟩ := List.mem_map.1 (called.mem_iff.2 expected)
      cases same
      obtain ⟨t, ended⟩ := ending_of_waitAll stateless rfl p.plan input s clock hc
      rw [Answers.outcome, answer] at ended
      exact ⟨c, hc, t, failure, ended, answer, rfl⟩

/-- Independence for a product whose right branch fails before its left one does. -/
theorem scheduleFree_of_two_failures :
    ∃ p, Program.parse "a × b" = .ok p ∧
      let delay : String → Val → Nat := fun task _ ↦ if task = "a" then 20 else 10
      let answers : Answers := fun task _ ↦ .error (.failed task)
      let e : Executor Unit :=
        ⟨fun task v s ↦ (⟨delay task v, false, false, answers task v, false⟩, s)⟩
      e.Stateless delay answers ∧
        ScheduleFree p answers .unit
          ((Machine.mk e .blind .waitAll).run p.plan .unit () () 0 none)
          ((Machine.mk e .blind .failFast).run p.plan .unit () () 0 none) := by
  have parsed := Except.eq_ok_get (x := Program.parse "a × b") (by decide)
  refine ⟨_, parsed, ?_⟩
  intro delay answers e
  have stateless : e.Stateless delay answers := fun _ _ _ ↦ rfl
  exact ⟨stateless, scheduleFree_of_stateless parsed stateless .unit () 0⟩

end Taskflow
