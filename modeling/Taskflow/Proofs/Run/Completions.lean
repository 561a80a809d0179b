import Mathlib.Data.List.Sort
import Taskflow.Proofs.Run.Outcomes
import Taskflow.Run.Guard

/-!
# The order in which literals yield their values

The history of a run and the log say which literals have yielded which values, and when: a task does
so when its call ends, and a functor name with the last literal of its body
(`History.completions`).  An observer that refuses nothing is told just these values, in the order of
time, and at one instant those of first stages and of left branches first, a functor name after its
body (`History.observer_of_run`).

What carries the induction is what happens at one instant (`Observer.Told`).  The completions that
it adds may stand anywhere among those that were there, since branches go on side by side, but all
others have an earlier date: when a run rests, no call that goes on is over yet
(`Machine.waits_of_settle`).
-/

namespace Taskflow

variable {σ ω : Type}

/-! ## Completions -/

/-- A value that a literal has yielded, with its date. -/
structure Completion extends Sighting where
  instant : Nat
deriving DecidableEq, Repr

namespace Completion

/-- The last date of some completions. -/
def latest (cs : List Completion) : Nat := cs.foldr (fun c t ↦ max c.instant t) 0

/-- Completions in the order of time; those of one instant stay as they are. -/
def inOrder (cs : List Completion) : List Completion :=
  cs.insertionSort fun c d ↦ c.instant ≤ d.instant

theorem latest_le {t : Nat} {cs : List Completion} (past : ∀ c ∈ cs, c.instant ≤ t) :
    latest cs ≤ t := by
  induction cs with
  | nil => exact Nat.zero_le t
  | cons c cs ih =>
    obtain ⟨first, rest⟩ := List.forall_mem_cons.1 past
    exact Nat.max_le.2 ⟨first, ih rest⟩

theorem le_latest {c : Completion} {cs : List Completion} (mem : c ∈ cs) :
    c.instant ≤ latest cs := by
  induction cs with
  | nil => cases mem
  | cons d cs ih =>
    rcases List.mem_cons.1 mem with rfl | mem
    · exact Nat.le_max_left _ _
    · exact Nat.le_trans (ih mem) (Nat.le_max_right _ _)

theorem latest_eq {t : Nat} {cs : List Completion} (past : ∀ c ∈ cs, c.instant ≤ t)
    (now : ∃ c ∈ cs, c.instant = t) : latest cs = t := by
  obtain ⟨c, mem, rfl⟩ := now
  exact Nat.le_antisymm (latest_le past) (le_latest mem)

end Completion

/-- When a call ended. -/
def World.endOf (w : World σ ω) (i : Nat) : Option Nat :=
  w.calls[i]?.bind fun r ↦ r.ending.map Prod.fst

/-- The value of an evaluation that has ended at the instant `t`. -/
def Visit.completion (visit : Visit σ ω) (site : Site) (t : Option Nat) : List Completion :=
  match visit.result, t with
  | some (.ok v), some t => [⟨⟨site, v⟩, t⟩]
  | _, _ => []

/-- The values that literals have yielded, those of first stages and of left branches first and those
of functor names after those of their bodies. -/
def History.completions (w : World σ ω) : History σ ω → List Completion
  | .unreached _ => []
  | .task visit site ticket => visit.completion site (ticket.bind w.endOf)
  | .named visit site body =>
    body.completions w ++ visit.completion site (some (Completion.latest (body.completions w)))
  | .seq _ outer inner => inner.completions w ++ outer.completions w
  | .par _ left right => left.completions w ++ right.completions w

namespace Visit

variable {visit : Visit σ ω} {site : Site} {t : Option Nat}

theorem completion_of_none (none : visit.result = none) : visit.completion site t = [] := by
  simp [completion, none]

theorem completion_upTo_error (visit : Visit σ ω) (e : RunError) :
    (visit.upTo (.done (.error e))).completion site t = [] := by
  cases t <;> rfl

theorem completion_upTo_of_pending {p : Process} (pending : p.isDone = false) :
    (visit.upTo p).completion site t = [] :=
  completion_of_none (Process.result?_of_pending pending)

/-- What goes on has yielded nothing. -/
theorem GoesOn.completion_eq (goesOn : visit.GoesOn) : visit.completion site t = [] :=
  completion_of_none goesOn.result

end Visit

/-! ## What an observer is told of at one instant -/

namespace Observer

/-- What an observer remembers that has been told of some completions. -/
def watch (a : Observer ω) (o : ω) (cs : List Completion) : ω :=
  cs.foldl (fun o c ↦ (a.observe c.site c.output o).2) o

/-- Whether all that the instant `t` adds to some completions is what the observer is told of. -/
structure Told (a : Observer ω) (t : Nat) (before after : List Completion) (o o' : ω) : Prop where
  kept : after.filter (fun c ↦ c.instant < t) = before
  past : ∀ c ∈ after, c.instant ≤ t
  told : o' = a.watch o (after.filter fun c ↦ c.instant = t)

namespace Told

variable {a : Observer ω} {t : Nat} {before before' after after' cs : List Completion}
  {o o' o'' : ω}

/-- Nothing happens to what is older. -/
theorem refl (early : ∀ c ∈ cs, c.instant < t) : a.Told t cs cs o o where
  kept := List.filter_eq_self.2 fun c hc ↦ decide_eq_true (early c hc)
  past c hc := Nat.le_of_lt (early c hc)
  told := by
    rw [List.filter_eq_nil_iff.2 fun c hc ↦ by simpa using Nat.ne_of_lt (early c hc)]
    rfl

theorem nil : a.Told t [] [] o o := refl nofun

theorem single (site : Site) (v : Val) :
    a.Told t [] [⟨⟨site, v⟩, t⟩] o (a.observe site v o).2 where
  kept := by simp
  past c hc := by
    obtain rfl := List.mem_singleton.1 hc
    exact Nat.le_refl t
  told := by simp [watch]

/-- One part of a process is told of after the other. -/
theorem append (h : a.Told t before after o o') (h' : a.Told t before' after' o' o'') :
    a.Told t (before ++ before') (after ++ after') o o'' where
  kept := by rw [List.filter_append, h.kept, h'.kept]
  past c hc := (List.mem_append.1 hc).elim (h.past c) (h'.past c)
  told := by rw [List.filter_append, watch, List.foldl_append, ← watch, ← watch, ← h.told, ← h'.told]

/-- Something new comes at the end. -/
theorem snoc (h : a.Told t before after o o') (site : Site) (v : Val) :
    a.Told t before (after ++ [⟨⟨site, v⟩, t⟩]) o (a.observe site v o').2 := by
  have both := h.append (single (a := a) (t := t) (o := o') site v)
  rwa [List.append_nil] at both

end Told

end Observer

namespace Completion

variable {c : Completion} {t : Nat} {before after cs ds : List Completion}

/-- An earlier completion goes before those of the present instant. -/
theorem orderedInsert_append_of_le (le : ∀ d ∈ ds, c.instant ≤ d.instant) :
    (cs ++ ds).orderedInsert (fun c d ↦ c.instant ≤ d.instant) c =
      cs.orderedInsert (fun c d ↦ c.instant ≤ d.instant) c ++ ds := by
  induction cs with
  | nil =>
    cases ds with
    | nil => rfl
    | cons d ds => exact List.orderedInsert_cons_of_le _ _ (le d List.mem_cons_self)
  | cons d cs ih =>
    rw [List.cons_append, List.orderedInsert_cons, List.orderedInsert_cons, ih]
    split <;> rfl

/-- A completion of the present instant goes after the earlier ones. -/
theorem orderedInsert_append_of_lt (lt : ∀ d ∈ cs, d.instant < c.instant)
    (le : ∀ d ∈ ds, c.instant ≤ d.instant) :
    (cs ++ ds).orderedInsert (fun c d ↦ c.instant ≤ d.instant) c = cs ++ c :: ds := by
  rw [orderedInsert_append_of_le le]
  induction cs with
  | nil => rfl
  | cons d cs ih =>
    obtain ⟨first, rest⟩ := List.forall_mem_cons.1 lt
    rw [List.orderedInsert_cons, if_neg (Nat.not_le.2 first)]
    exact congrArg (d :: ·) (ih rest)

/-- What the present instant adds comes last. -/
theorem inOrder_eq_append (past : ∀ c ∈ cs, c.instant ≤ t) :
    inOrder cs =
      inOrder (cs.filter fun c ↦ c.instant < t) ++ cs.filter fun c ↦ c.instant = t := by
  induction cs with
  | nil => rfl
  | cons c cs ih =>
    obtain ⟨first, rest⟩ := List.forall_mem_cons.1 past
    have new : ∀ d ∈ cs.filter (fun c ↦ c.instant = t), c.instant ≤ d.instant := by
      intro d hd
      rw [of_decide_eq_true (List.mem_filter.1 hd).2]
      exact first
    rw [inOrder, List.insertionSort_cons, ← inOrder, ih rest]
    rcases Nat.lt_or_eq_of_le first with early | now
    · rw [List.filter_cons_of_pos (by simpa using early),
        List.filter_cons_of_neg (by simpa using Nat.ne_of_lt early), orderedInsert_append_of_le new]
      rfl
    · rw [List.filter_cons_of_neg (by simp [now]), List.filter_cons_of_pos (by simp [now])]
      refine orderedInsert_append_of_lt (fun d hd ↦ ?_) new
      have old := List.mem_filter.1 ((List.mem_insertionSort _).1 hd)
      rw [now]
      exact of_decide_eq_true old.2

end Completion

/-- An observer that was told of all completions in the order of time still is. -/
theorem Observer.Told.observer_eq {a : Observer ω} {t : Nat} {before after : List Completion}
    {o o' o'' : ω} (h : a.Told t before after o' o'')
    (watched : o' = a.watch o (Completion.inOrder before)) :
    o'' = a.watch o (Completion.inOrder after) := by
  rw [Completion.inOrder_eq_append h.past, h.kept, watch, List.foldl_append, ← watch, ← watch,
    ← watched]
  exact h.told

namespace Machine

variable {m : Machine σ ω} {s : σ} {u w w' W : World σ ω} {plan : Plan} {v : Val}
  {p p' q r : Process} {F : List Call} {h : History σ ω} {t : Nat} {o : ω}
  {before : List Completion}

/-- Whether the instant `t` adds what the observer is told of; if a value comes of it, it adds
something. -/
structure Adds (m : Machine σ ω) (t : Nat) (before after : List Completion) (o o' : ω)
    (p : Process) : Prop extends m.observer.Told t before after o o' where
  yields : ∀ v, p = .done (.ok v) → ∃ c ∈ after, c.instant = t

/-! ## A plan that is started -/

theorem observer_observe (site : Site) (v : Val) (w : World σ ω) :
    (m.observe site v w).2.observer = (m.observer.observe site v w.observer).2 := by
  unfold observe
  split <;> simp_all

/-- A functor name is told of when its body has yielded a value. -/
theorem Leaves.adds (accepts : m.observer.Accepts) {site : Site} (h : m.Leaves site p w q w')
    (visit : Visit σ ω) {body : History σ ω}
    (adds : m.Adds t before (body.completions W) o w.observer p) :
    m.Adds t before ((History.named (visit.upTo q) site body).completions W) o w'.observer q := by
  rw [History.completions]
  cases h with
  | @ok v w =>
    rw [observe_of_accepts accepts, observer_observe,
      Completion.latest_eq adds.past (adds.yields v rfl)]
    exact ⟨adds.toTold.snoc site v, fun _ _ ↦ ⟨_, List.mem_concat_self, rfl⟩⟩
  | error =>
    rw [Visit.completion_upTo_error, List.append_nil]
    exact adds
  | wait pending =>
    rw [Visit.completion_upTo_of_pending (by rfl), List.append_nil]
    exact ⟨adds.toTold, by simp⟩

theorem Joins.observer_eq (h : m.Joins w p q r w') : w'.observer = w.observer := by
  cases h <;> simp

/-- A product is told of as its branches are. -/
theorem Joins.adds (h : m.Joins w p q r w') (visit : Visit σ ω) {o' : ω} {left right : History σ ω}
    {before' : List Completion} (addsLeft : m.observer.Told t before (left.completions W) o o')
    (addsRight : m.observer.Told t before' (right.completions W) o' w.observer)
    (yields : ∀ v w, p = .done (.ok v) → q = .done (.ok w) →
      ∃ c ∈ left.completions W ++ right.completions W, c.instant = t) :
    m.Adds t (before ++ before') ((History.par visit left right).completions W) o w'.observer r := by
  rw [h.observer_eq]
  refine ⟨addsLeft.append addsRight, fun v result ↦ ?_⟩
  cases h with
  | ok => exact yields _ _ rfl rfl
  | _ => cases result

/-- The end of a call that is over is told of. -/
theorem adds_finish (accepts : m.observer.Accepts) {c : Call}
    (annals : Annals m.executor s w (c :: F)) (due : c.wake ≤ w.clock) (visit : Visit σ ω)
    (later : (m.finish c w).2.Precedes W) :
    m.Adds w.clock []
      ((History.task (visit.upTo (m.finish c w).1) c.site (some c.ticket)).completions W) w.observer
      (m.finish c w).2.observer (m.finish c w).1 := by
  obtain ⟨start, -, ended, -⟩ := calls_finish annals due
  have ended' : W.endOf c.ticket = some w.clock := by
    rw [World.endOf, later.closed ended (by simp)]
    rfl
  rw [History.completions, Option.bind_some, ended']
  unfold finish
  dsimp only
  cases c.reply.result with
  | ok v =>
    dsimp only
    rw [observe_of_accepts accepts, observer_observe, World.observer_close, World.observer_cancelBy]
    exact ⟨.single c.site v, fun _ _ ↦ ⟨_, List.mem_cons_self, rfl⟩⟩
  | error f =>
    rw [Visit.completion_upTo_error]
    dsimp only
    rw [World.observer_close, World.observer_cancelBy]
    exact ⟨.nil, by simp⟩

theorem Calls.adds (accepts : m.observer.Accepts) {site : Site} (h : m.Calls site v w p w')
    (annals : Annals m.executor s w F) (later : w'.Precedes W) :
    m.Adds w.clock []
      ((History.task ⟨v, w, p.result?⟩ site
        (if w.stopped then none else some w.calls.length)).completions W)
      w.observer w'.observer p := by
  cases h with
  | stopped stopped =>
    rw [if_pos stopped]
    exact ⟨.nil, by simp⟩
  | now live due =>
    rw [if_neg (by simp [live])]
    exact adds_finish accepts (annals.ask site v) due ⟨v, w, none⟩ later
  | wait live =>
    rw [if_neg (by simp [live])]
    exact ⟨.nil, by simp⟩

/-- All values that the start of a plan brings have the present date. -/
theorem Starts.adds (accepts : m.observer.Accepts) (h : m.Starts plan v w p w')
    (annals : Annals m.executor s w F) (later : w'.Precedes W) :
    m.Adds w.clock [] ((m.recorded plan v w).completions W) w.observer w'.observer p := by
  have start := h.eq
  induction h generalizing F with
  | task => exact (m.calls _ _ _).adds accepts annals later
  | named body leaves ih =>
    rw [recorded, start]
    exact leaves.adds accepts ⟨_, _, none⟩ (ih annals (leaves.precedes.trans later) body.eq)
  | seqOk inner outer ihInner ihOuter =>
    obtain ⟨annals', -⟩ := inner.annals annals
    have addsInner := ihInner annals ((outer.annals annals').2.trans later) inner.eq
    have addsOuter := ihOuter annals' later outer.eq
    rw [inner.clock_eq] at addsOuter
    simp only [recorded, inner.eq]
    refine ⟨addsInner.toTold.append addsOuter.toTold, fun v result ↦ ?_⟩
    obtain ⟨c, hc, now⟩ := addsOuter.yields v result
    exact ⟨c, List.mem_append_right _ hc, now⟩
  | seqError inner ih =>
    simp only [recorded, inner.eq, History.completions, List.append_nil]
    exact ih annals later inner.eq
  | seqWait first pending ih =>
    have adds := ih annals later first.eq
    rw [first.recorded_wait pending, History.completions, History.completions, List.append_nil]
    exact ⟨adds.toTold, by simp⟩
  | @parEnds left right v w l w₁ first ends ih =>
    obtain ⟨e, rfl, -⟩ := m.ends_iff.1 ends
    have entered := annals.same (.enter _ false)
    simp only [recorded, first.eq, ends, if_true, History.completions, List.append_nil]
    exact ih entered (.trans (.of_sameLog (.leave _)) later) first.eq
  | par left notLeft right joins ihLeft ihRight =>
    have entered := annals.same (.enter _ false)
    obtain ⟨annals', -⟩ := left.annals entered
    obtain ⟨annals'', precedes⟩ := right.annals annals'
    have joined := joins.precedes (annals''.perm (List.perm_append_comm_assoc _ _ _))
    have addsLeft := ihLeft entered (precedes.trans (joined.trans later)) left.eq
    have addsRight := ihRight annals' (joined.trans later) right.eq
    rw [left.clock_eq] at addsRight
    simp only [recorded, left.eq, notLeft, Bool.false_eq_true, if_false]
    refine joins.adds _ addsLeft.toTold addsRight.toTold fun a b okLeft _ ↦ ?_
    obtain ⟨c, hc, now⟩ := addsLeft.yields a okLeft
    exact ⟨c, List.mem_append_left _ hc, now⟩

/-! ## A process that is resumed -/

variable {settle : Call → World σ ω → Process × World σ ω}

/-- A call that goes on yields a value just when it ends. -/
theorem Settles.adds (accepts : m.observer.Accepts) {c : Call} (h : m.Settles c w p w')
    (annals : Annals m.executor s w (c :: F)) (visit : Visit σ ω) (later : w'.Precedes W) :
    m.Adds w.clock [] ((History.task (visit.upTo p) c.site (some c.ticket)).completions W) w.observer
      w'.observer p := by
  cases h with
  | wait => exact ⟨.nil, by simp⟩
  | finish due => exact adds_finish accepts annals due visit later
  | giveUp =>
    rw [History.completions, Visit.completion_upTo_error]
    exact ⟨.nil, by simp⟩

/-- All values that come of a process at an instant have its date, if what it has yielded before has
earlier ones. -/
theorem adds_updated (accepts : m.observer.Accepts) (settling : m.Settling settle)
    (tracks : h.Tracks u p) (precedes : u.Precedes w) (resumes : m.Resumes settle p w p' w')
    (annals : Annals m.executor s w (p.calls ++ F)) (settled : m.Settled p)
    (later : w'.Precedes W) (early : ∀ c ∈ h.completions W, c.instant < w.clock) :
    m.observer.Told w.clock (h.completions W) ((m.updated settle h p w).completions W) w.observer
        w'.observer ∧
      (p.isDone = false → ∀ v, p' = .done (.ok v) →
        ∃ c ∈ (m.updated settle h p w).completions W, c.instant = w.clock) := by
  have resume := resumes.eq
  induction tracks generalizing w p' w' F with
  | done =>
    cases resumes
    rw [updated_done]
    exact ⟨.refl early, by simp [Process.isDone]⟩
  | @call visit _ goesOn =>
    cases resumes
    have adds := (settling _ _).adds accepts annals visit later
    rw [History.completions, goesOn.completion_eq]
    exact ⟨adds.toTold, fun _ ↦ adds.yields⟩
  | @named visit _ _ _ goesOn tracks ih =>
    rw [History.completions, goesOn.completion_eq, List.append_nil] at early ⊢
    cases resumes with
    | named body leaves =>
      obtain ⟨told, yields⟩ :=
        ih precedes body annals settled.1 (leaves.precedes.trans later) early body.eq
      have adds := leaves.adds accepts visit ⟨told, yields settled.2⟩
      rw [updated, resume]
      exact ⟨adds.toTold, fun _ ↦ adds.yields⟩
  | first goesOn tracks ih =>
    rw [History.completions, History.completions, List.append_nil] at early ⊢
    cases resumes with
    | seqOk inner outer =>
      obtain ⟨annals', -⟩ := inner.annals settling annals
      obtain ⟨told, -⟩ := ih precedes inner annals settled.1
        ((outer.annals annals').2.trans later) early inner.eq
      have adds := outer.adds accepts annals' later
      rw [inner.clock_eq settling.clock_eq] at adds
      simp only [updated, inner.eq]
      have both := told.append adds.toTold
      rw [List.append_nil] at both
      refine ⟨both, fun _ v result ↦ ?_⟩
      obtain ⟨c, hc, now⟩ := adds.yields v result
      exact ⟨c, List.mem_append_right _ hc, now⟩
    | seqError inner =>
      obtain ⟨told, -⟩ := ih precedes inner annals settled.1 later early inner.eq
      simp only [updated, inner.eq, History.completions, List.append_nil]
      exact ⟨told, by simp⟩
    | seqWait inner pending =>
      obtain ⟨told, -⟩ := ih precedes inner annals settled.1 later early inner.eq
      rw [inner.updated_wait pending, History.completions, History.completions, List.append_nil]
      exact ⟨told, by simp⟩
  | second goesOn tracks pending closed ih =>
    obtain ⟨earlyInner, earlyOuter⟩ := List.forall_mem_append.1 early
    obtain ⟨told, yields⟩ := ih precedes resumes annals settled later earlyOuter resume
    rw [updated_second tracks pending]
    refine ⟨(Observer.Told.refl earlyInner).append told, fun _ v result ↦ ?_⟩
    obtain ⟨c, hc, now⟩ := yields pending v result
    exact ⟨c, List.mem_append_right _ hc, now⟩
  | @par visit flag _ _ p q goesOn tracksLeft tracksRight ihLeft ihRight =>
    obtain ⟨earlyLeft, earlyRight⟩ := List.forall_mem_append.1 early
    obtain ⟨settledLeft, settledRight, pending, -⟩ := settled
    rw [Process.calls, List.append_assoc] at annals
    have entered := annals.same (.enter _ flag)
    have inside := precedes.trans (.of_sameLog (.enter _ flag))
    cases resumes with
    | parEnds left ends =>
      obtain ⟨e, rfl, -⟩ := m.ends_iff.1 ends
      obtain ⟨annals', -⟩ := left.annals settling entered
      have dropped := (Annals.drop (p := q) annals').trans (.of_sameLog (.leave _))
      obtain ⟨told, -⟩ := ihLeft inside left entered settledLeft (dropped.trans later) earlyLeft
        left.eq
      simp only [updated, left.eq, ends, if_true]
      rw [World.observer_leave, Process.observer_drop]
      exact ⟨told.append (.refl earlyRight), by simp⟩
    | par left notLeft right joins =>
      obtain ⟨annals', first⟩ := left.annals settling entered
      have beside := annals'.perm (List.perm_append_comm_assoc _ _ _)
      obtain ⟨annals'', second⟩ := right.annals settling beside
      have joined := joins.precedes (annals''.perm (List.perm_append_comm_assoc _ _ _))
      have same := left.clock_eq settling.clock_eq
      rw [World.clock_enter] at same
      obtain ⟨toldLeft, yieldsLeft⟩ := ihLeft inside left entered settledLeft
        (second.trans (joined.trans later)) earlyLeft left.eq
      obtain ⟨toldRight, yieldsRight⟩ := ihRight (inside.trans first) right beside settledRight
        (joined.trans later) (by rwa [same]) right.eq
      rw [same] at toldRight yieldsRight
      simp only [updated, left.eq, notLeft, Bool.false_eq_true, if_false]
      have adds := joins.adds visit toldLeft toldRight fun a b okLeft okRight ↦ by
        -- One of the branches has yielded its value just now, since the product was waiting.
        rcases Bool.and_eq_false_iff.1 pending with pending | pending
        · obtain ⟨c, hc, now⟩ := yieldsLeft pending a okLeft
          exact ⟨c, List.mem_append_left _ hc, now⟩
        · obtain ⟨c, hc, now⟩ := yieldsRight pending b okRight
          exact ⟨c, List.mem_append_right _ hc, now⟩
      exact ⟨adds.toTold, fun _ ↦ adds.yields⟩

/-- Giving up calls yields nothing. -/
theorem completions_swept (tracks : h.Tracks u p) (resumes : m.Resumes settleStopped p w p' w')
    (settled : m.Settled p) :
    (m.updated settleStopped h p w).completions W = h.completions W ∧
      w'.observer = w.observer := by
  have resume := resumes.eq
  induction tracks generalizing w p' w' with
  | done =>
    cases resumes
    rw [updated_done]
    exact ⟨rfl, rfl⟩
  | @call visit c goesOn =>
    cases resumes
    have none : (visit.upTo (settleStopped c w).1).completion c.site (W.endOf c.ticket) = [] := by
      unfold settleStopped
      split
      · exact Visit.completion_upTo_error _ _
      · exact Visit.completion_upTo_of_pending rfl
    refine ⟨none.trans goesOn.completion_eq.symm, ?_⟩
    unfold settleStopped
    split <;> rfl
  | named goesOn tracks ih =>
    rw [updated, resume, History.completions, History.completions, goesOn.completion_eq]
    cases resumes with
    | named body leaves =>
      obtain ⟨same, observer⟩ := ih body settled.1 body.eq
      rw [same]
      cases leaves with
      | ok => exact ((body.of_settleStopped settled.1).2 settled.2 _ rfl).elim
      | error => exact ⟨by rw [Visit.completion_upTo_error], observer⟩
      | wait => exact ⟨by rw [Visit.completion_upTo_of_pending (by rfl)], observer⟩
  | first goesOn tracks ih =>
    cases resumes with
    | seqOk inner => exact ((inner.of_settleStopped settled.1).2 settled.2 _ rfl).elim
    | seqError inner =>
      obtain ⟨same, observer⟩ := ih inner settled.1 inner.eq
      simp only [updated, inner.eq, History.completions]
      exact ⟨by rw [same], observer⟩
    | seqWait inner pending =>
      obtain ⟨same, observer⟩ := ih inner settled.1 inner.eq
      rw [inner.updated_wait pending, History.completions, same]
      exact ⟨rfl, observer⟩
  | second goesOn tracks pending closed ih =>
    obtain ⟨same, observer⟩ := ih resumes settled resume
    rw [updated_second tracks pending, History.completions, History.completions, same]
    exact ⟨rfl, observer⟩
  | par goesOn tracksLeft tracksRight ihLeft ihRight =>
    obtain ⟨settledLeft, settledRight, -⟩ := settled
    cases resumes with
    | parEnds left ends =>
      obtain ⟨same, observer⟩ := ihLeft left settledLeft left.eq
      simp only [updated, left.eq, ends, if_true, History.completions]
      rw [World.observer_leave, Process.observer_drop]
      exact ⟨by rw [same], observer⟩
    | par left notLeft right joins =>
      obtain ⟨sameLeft, observerLeft⟩ := ihLeft left settledLeft left.eq
      obtain ⟨sameRight, observerRight⟩ := ihRight right settledRight right.eq
      simp only [updated, left.eq, notLeft, Bool.false_eq_true, if_false, History.completions]
      rw [joins.observer_eq]
      exact ⟨by rw [sameLeft, sameRight], observerRight.trans observerLeft⟩

/-! ## When a run rests -/

/-- Whether no call that goes on is over by now. -/
def Waits (p : Process) (t : Nat) : Prop := ∀ c ∈ p.calls, t < c.wake

theorem waits_done (r : Except RunError Val) (t : Nat) : Waits (.done r) t := by
  simp [Waits, Process.calls]

theorem Joins.waits (h : m.Joins w p q r w') (left : Waits p t) (right : Waits q t) :
    Waits r t := by
  cases h with
  | wait => exact fun c hc ↦ (List.mem_append.1 hc).elim (left c) (right c)
  | _ => exact waits_done _ _

theorem Leaves.waits {site : Site} (h : m.Leaves site p w q w') (waits : Waits p t) :
    Waits q t := by
  cases h with
  | ok =>
    intro c hc
    rw [(m.observe_sameLog _ _ _).1] at hc
    cases hc
  | error | wait => exact waits

theorem Calls.waits {site : Site} (h : m.Calls site v w p w') : Waits p w.clock := by
  cases h with
  | stopped => exact waits_done _ _
  | now =>
    rw [Process.eq_done_of_isDone (isDone_finish _ _)]
    exact waits_done _ _
  | wait _ delay =>
    intro c hc
    obtain rfl := List.mem_singleton.1 hc
    exact Nat.lt_add_of_pos_right delay

/-- What is started waits for calls that take some time. -/
theorem Starts.waits (h : m.Starts plan v w p w') : Waits p w.clock := by
  induction h with
  | task => exact (m.calls _ _ _).waits
  | named _ leaves ih => exact leaves.waits ih
  | seqOk inner _ _ ih => rwa [inner.clock_eq] at ih
  | seqError => exact waits_done _ _
  | seqWait _ _ ih => exact ih
  | parEnds _ _ ih => exact ih
  | par left _ _ joins ihLeft ihRight =>
    rw [left.clock_eq] at ihRight
    exact joins.waits ihLeft ihRight

/-- What is resumed waits if what becomes of its calls does. -/
theorem Resumes.waits (settling : m.Settling settle) (resumes : m.Resumes settle p w p' w')
    (settles : ∀ c ∈ p.calls, ∀ u : World σ ω, u.clock = w.clock → Waits (settle c u).1 w.clock) :
    Waits p' w.clock := by
  induction resumes with
  | done => exact waits_done _ _
  | call => exact settles _ List.mem_cons_self _ rfl
  | named _ leaves ih => exact leaves.waits (ih settles)
  | seqOk inner outer =>
    rw [← inner.clock_eq settling.clock_eq]
    exact outer.waits
  | seqError => exact waits_done _ _
  | seqWait _ _ ih => exact ih settles
  | parEnds _ _ ih => exact ih fun c hc ↦ settles c (List.mem_append_left _ hc)
  | par left _ _ joins ihLeft ihRight =>
    have same := left.clock_eq settling.clock_eq
    rw [World.clock_enter] at same
    rw [same] at ihRight
    exact joins.waits (ihLeft fun c hc ↦ settles c (List.mem_append_left _ hc))
      (ihRight fun c hc ↦ settles c (List.mem_append_right _ hc))

/-- Once the calls that are over have taken effect, those that go on are not over. -/
theorem waits_of_settle (resumes : m.Resumes m.settle p w p' w') : Waits p' w.clock := by
  refine resumes.waits m.settling_settle fun c _ u now ↦ ?_
  unfold settle
  split
  next stopped =>
    rw [settleStopped, if_pos stopped]
    exact waits_done _ _
  next =>
    unfold settleDue
    split
    next =>
      rw [Process.eq_done_of_isDone (isDone_finish _ _)]
      exact waits_done _ _
    next late =>
      intro d hd
      obtain rfl := List.mem_singleton.1 hd
      rw [← now]
      exact Nat.not_le.1 late

/-- Giving up calls leaves the others as they are. -/
theorem waits_of_sweep (resumes : m.Resumes settleStopped p w p' w') (waits : Waits p w.clock) :
    Waits p' w.clock := by
  refine resumes.waits m.settling_settleStopped fun c hc u _ ↦ ?_
  unfold settleStopped
  split
  · exact waits_done _ _
  · intro d hd
    obtain rfl := List.mem_singleton.1 hd
    exact waits _ hc

end Machine

/-! ## Runs -/

/-- Whether an observer has been told of what literals have yielded up to now, and in which order. -/
structure History.Watched (a : Observer ω) (o : ω) (w : World σ ω) (h : History σ ω) : Prop where
  past : ∀ W, w.Precedes W → ∀ c ∈ h.completions W, c.instant ≤ w.clock
  told : ∀ W, w.Precedes W → w.observer = a.watch o (Completion.inOrder (h.completions W))

namespace History

variable {m : Machine σ ω} {s : σ} {plan : Plan} {p p' : Process} {w w' : World σ ω}
  {h : History σ ω} {o : ω}

/-- Time goes on, and nothing is yielded by that. -/
theorem Watched.advance {a : Observer ω} (watched : h.Watched a o w) {t : Nat} (cancelled : Bool)
    (precedes : w.Precedes { w with clock := t, cancelled }) :
    h.Watched a o { w with clock := t, cancelled } where
  past W later c hc := Nat.le_trans (watched.past W (precedes.trans later) c hc) precedes.clock
  told W later := watched.told W (precedes.trans later)

theorem Watched.swept (watched : h.Watched m.observer o w) (tracks : h.Tracks w p)
    (resumes : m.Resumes Machine.settleStopped p w p' w') (settled : m.Settled p)
    (precedes : w.Precedes w') :
    (m.updated Machine.settleStopped h p w).Watched m.observer o w' where
  past W later c hc := by
    rw [(Machine.completions_swept tracks resumes settled).1] at hc
    exact Nat.le_trans (watched.past W (precedes.trans later) c hc) precedes.clock
  told W later := by
    obtain ⟨same, observer⟩ := Machine.completions_swept (W := W) tracks resumes settled
    rw [same, observer]
    exact watched.told W (precedes.trans later)

/-- What calls yield that are over comes after what has been yielded at earlier instants. -/
theorem Watched.ticked (accepts : m.observer.Accepts) (recounts : h.Recounts m s plan p w)
    (watched : h.Watched m.observer o w) (settled : m.Settled p)
    (resumes : m.Resumes m.settle p w p' w')
    (early : ∀ W, w.Precedes W → ∀ c ∈ h.completions W, c.instant < w.clock) :
    (m.updated m.settle h p w).Watched m.observer o w' := by
  have annals : Annals m.executor s w (p.calls ++ []) := by
    rw [List.append_nil]
    exact recounts.annals
  have precedes := (resumes.annals m.settling_settle annals).2
  have told {W : World σ ω} (later : w'.Precedes W) :=
    (Machine.adds_updated accepts m.settling_settle recounts.tracks (.refl w) resumes annals settled
      later (early W (precedes.trans later))).1
  constructor
  · intro W later c hc
    exact Nat.le_trans ((told later).past c hc) precedes.clock
  · intro W later
    exact (told later).observer_eq (watched.told W (precedes.trans later))

/-- An observer that refuses nothing is told of what the literals of a run yield, in the order of
time. -/
theorem observer_of_run (accepts : m.observer.Accepts) (plan : Plan) (input : Val) (s : σ) (o : ω)
    (clock : Nat) (cancelAfter : Option Nat) :
    (m.run plan input s o clock cancelAfter).2.observer = m.observer.watch o
      (Completion.inOrder ((m.history plan input s o clock cancelAfter).completions
        (m.run plan input s o clock cancelAfter).2)) := by
  let moment (h : History σ ω) (p : Process) (w : World σ ω) : Prop :=
    h.Recounts m s plan p w ∧ m.Settled p ∧ h.Watched m.observer o w
  let rests (h : History σ ω) (p : Process) (w : World σ ω) : Prop :=
    moment h p w ∧ Machine.Waits p w.clock
  let stirs (h : History σ ω) (p : Process) (w : World σ ω) : Prop :=
    moment h p w ∧ (Machine.Waits p w.clock ∨ w.cancelled = true)
  have ends : rests (m.history plan input s o clock cancelAfter)
      (.done (m.run plan input s o clock cancelAfter).1)
      (m.run plan input s o clock cancelAfter).2 := by
    refine Machine.history_spec (I := rests) (J := stirs) ?_ ?_ ?_ ?_
    · intro p w starts
      have initial := Annals.initial m s o clock cancelAfter
      have recounts := Recounts.of_starts starts initial rfl
      have waits := starts.waits
      rw [← starts.clock_eq] at waits
      refine ⟨⟨recounts, starts.settled, fun W later c hc ↦ ?_, fun W later ↦ ?_⟩, .inl waits⟩
      · rw [starts.clock_eq]
        exact (starts.adds accepts initial later).past c hc
      · exact (starts.adds accepts initial later).observer_eq rfl
    · rintro h p w p' w' ⟨⟨recounts, settled, watched⟩, waits⟩ resumes
      have annals : Annals m.executor s w (p.calls ++ []) := by
        rw [List.append_nil]
        exact recounts.annals
      have precedes := (resumes.annals m.settling_settleStopped annals).2
      refine ⟨⟨recounts.updated m.settling_settleStopped resumes,
        resumes.settled Machine.settled_settleStopped,
        watched.swept recounts.tracks resumes settled precedes⟩, ?_⟩
      -- A run that its caller has cancelled rests because nothing goes on any more.
      rcases waits with waits | cancelled
      · rw [resumes.clock_eq m.settling_settleStopped.clock_eq]
        exact Machine.waits_of_sweep resumes waits
      · have none := (resumes.of_cancelled Machine.givesUp_settleStopped cancelled
          annals.ledger).2.1
        intro c hc
        rw [none] at hc
        cases hc
    · rintro h p w t p' w' ⟨⟨recounts, settled, watched⟩, waits⟩ wake resumes
      obtain ⟨-, c, hc, rfl⟩ := Process.nextWake_spec wake
      have woken := recounts.wake wake
      have precedes := (recounts.annals.advance w.cancelled (recounts.annals.waits c hc)
        (Process.nextWake_spec wake).1).2
      have advanced := watched.advance w.cancelled precedes
      refine ⟨⟨woken.updated m.settling_settle resumes,
        resumes.settled Machine.settled_settle, ?_⟩, .inl ?_⟩
      · refine advanced.ticked accepts woken settled resumes fun W later d hd ↦ ?_
        exact Nat.lt_of_le_of_lt (watched.past W (precedes.trans later) d hd) (waits c hc)
      · rw [resumes.clock_eq m.settling_settle.clock_eq]
        exact Machine.waits_of_settle resumes
    · rintro h p w t c ⟨⟨recounts, settled, watched⟩, -⟩ wake - later due
      have cancelled := recounts.cancel wake later due
      have precedes := (recounts.annals.advance true later fun d hd ↦
        Nat.le_trans due ((Process.nextWake_spec wake).1 d hd)).2
      exact ⟨⟨cancelled, settled, watched.advance true precedes⟩, .inr rfl⟩
  exact ends.1.2.2.told _ (.refl _)

end History

end Taskflow
