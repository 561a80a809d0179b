import Mathlib.Data.List.Perm.Basic
import Taskflow.Proofs.Run.Annals
import Taskflow.Proofs.Run.Cancellation

/-!
# What a run evaluates

The history of a run is a tree that follows its plan: each node that is reached is visited once, and
a visit says on which value and in which world the evaluation begins and how it ends.  A history is
written beside the run, each function along the one whose evaluations it writes down: `recorded`
along `Machine.start`, `updated` along `Machine.resume` and `historyFrom` along `Machine.proceed`.
Nothing in a run depends on its history.

A task that is visited notes the place of its call in the log, and the tickets of a history are the
places of all calls that were made for it.  `AddsTickets` says that these are the calls that the run
has made, each of them once.

While a run goes on, `History.Tracks` relates its history to its process: where an evaluation goes
on so does its process, and of the calls that were made for it only those of its process do.
-/

namespace Taskflow

variable {σ ω : Type}

/-- How a process has ended; nothing if it goes on. -/
def Process.result? : Process → Option (Except RunError Val)
  | .done r => some r
  | _ => none

theorem Process.result?_of_pending {p : Process} (pending : p.isDone = false) :
    p.result? = none := by
  cases p with
  | done => cases pending
  | _ => rfl

/-- An evaluation. -/
structure Visit (σ ω : Type) where
  input : Val
  /-- the world in which it begins -/
  world : World σ ω
  /-- how it has ended; nothing if it goes on or was given up -/
  result : Option (Except RunError Val)

/-- The evaluations of a plan and of all that is below it. -/
inductive History (σ ω : Type) where
  | unreached (plan : Plan)
  /-- with the place of the call in the log, unless nothing is called because of a cancellation -/
  | task (visit : Visit σ ω) (site : Site) (ticket : Option Nat)
  | named (visit : Visit σ ω) (site : Site) (body : History σ ω)
  | seq (visit : Visit σ ω) (outer inner : History σ ω)
  | par (visit : Visit σ ω) (left right : History σ ω)

/-- The same visit when its process has got this far. -/
def Visit.upTo (visit : Visit σ ω) (p : Process) : Visit σ ω := { visit with result := p.result? }

namespace History

/-- The plan that is evaluated. -/
def plan : History σ ω → Plan
  | .unreached plan => plan
  | .task _ site _ => .task site
  | .named _ site body => .named site body.plan
  | .seq _ outer inner => .seq outer.plan inner.plan
  | .par _ left right => .par left.plan right.plan

def visit? : History σ ω → Option (Visit σ ω)
  | .unreached _ => none
  | .task visit .. | .named visit .. | .seq visit .. | .par visit .. => some visit

/-- How the evaluation has ended, if it was reached. -/
def result? (h : History σ ω) : Option (Except RunError Val) := h.visit?.bind Visit.result

/-- Whether the evaluation begins on this value in this world. -/
def Begins (h : History σ ω) (v : Val) (w : World σ ω) : Prop :=
  ∃ result, h.visit? = some ⟨v, w, result⟩

/-- The places in the log of the calls that are made, those of first stages and of left branches
first. -/
def tickets : History σ ω → List Nat
  | .unreached _ => []
  | .task _ _ ticket => ticket.toList
  | .named _ _ body => body.tickets
  | .seq _ outer inner => inner.tickets ++ outer.tickets
  | .par _ left right => left.tickets ++ right.tickets

/-- How many evaluations have begun. -/
def visits : History σ ω → Nat
  | .unreached _ => 0
  | .task .. => 1
  | .named _ _ body => body.visits + 1
  | .seq _ outer inner => inner.visits + outer.visits + 1
  | .par _ left right => left.visits + right.visits + 1

/-- The history and all histories below it. -/
def parts : History σ ω → List (History σ ω)
  | .unreached plan => [.unreached plan]
  | .task visit site ticket => [.task visit site ticket]
  | .named visit site body => .named visit site body :: body.parts
  | .seq visit outer inner => .seq visit outer inner :: (inner.parts ++ outer.parts)
  | .par visit left right => .par visit left right :: (left.parts ++ right.parts)

theorem mem_parts_self (h : History σ ω) : h ∈ h.parts := by
  cases h <;> exact List.mem_cons_self

/-- Whether something holds of a history and of all below it. -/
def All (P : History σ ω → Prop) (h : History σ ω) : Prop := ∀ g ∈ h.parts, P g

section All

variable {P Q : History σ ω → Prop} {visit : Visit σ ω} {g h : History σ ω}

theorem All.imp (all : h.All P) (imp : ∀ g, P g → Q g) : h.All Q := fun g hg ↦ imp g (all g hg)

theorem All.self (all : h.All P) : P h := all h h.mem_parts_self

theorem all_unreached {plan : Plan} : (History.unreached plan).All P ↔ P (.unreached plan) := by
  simp [All, parts]

theorem all_task {site : Site} {ticket : Option Nat} :
    (History.task visit site ticket).All P ↔ P (.task visit site ticket) := by
  simp [All, parts]

theorem all_named {site : Site} {body : History σ ω} :
    (History.named visit site body).All P ↔ P (.named visit site body) ∧ body.All P := by
  simp [All, parts]

theorem all_seq {outer inner : History σ ω} : (History.seq visit outer inner).All P ↔
    P (.seq visit outer inner) ∧ inner.All P ∧ outer.All P := by
  simp [All, parts, or_imp, forall_and]

theorem all_par {left right : History σ ω} : (History.par visit left right).All P ↔
    P (.par visit left right) ∧ left.All P ∧ right.All P := by
  simp [All, parts, or_imp, forall_and]

/-- A part of a part is a part. -/
theorem All.of_mem (all : h.All P) (hg : g ∈ h.parts) : g.All P := by
  induction h with
  | unreached | task =>
    obtain rfl := List.mem_singleton.1 hg
    exact all
  | named visit site body ih =>
    rcases List.mem_cons.1 hg with rfl | hg
    · exact all
    · exact ih (all_named.1 all).2 hg
  | seq visit outer inner ihOuter ihInner =>
    rcases List.mem_cons.1 hg with rfl | hg
    · exact all
    · rcases List.mem_append.1 hg with hg | hg
      · exact ihInner (all_seq.1 all).2.1 hg
      · exact ihOuter (all_seq.1 all).2.2 hg
  | par visit left right ihLeft ihRight =>
    rcases List.mem_cons.1 hg with rfl | hg
    · exact all
    · rcases List.mem_append.1 hg with hg | hg
      · exact ihLeft (all_par.1 all).2.1 hg
      · exact ihRight (all_par.1 all).2.2 hg

/-- The calls that are made for a part of a history are calls of the history. -/
theorem tickets_subset (hg : g ∈ h.parts) : g.tickets ⊆ h.tickets := by
  induction h with
  | unreached | task =>
    obtain rfl := List.mem_singleton.1 hg
    exact List.Subset.refl _
  | named visit site body ih =>
    rcases List.mem_cons.1 hg with rfl | hg
    · exact List.Subset.refl _
    · exact ih hg
  | seq visit outer inner ihOuter ihInner =>
    rcases List.mem_cons.1 hg with rfl | hg
    · exact List.Subset.refl _
    · rcases List.mem_append.1 hg with hg | hg
      · exact List.subset_append_of_subset_left _ (ihInner hg)
      · exact List.subset_append_of_subset_right _ (ihOuter hg)
  | par visit left right ihLeft ihRight =>
    rcases List.mem_cons.1 hg with rfl | hg
    · exact List.Subset.refl _
    · rcases List.mem_append.1 hg with hg | hg
      · exact List.subset_append_of_subset_left _ (ihLeft hg)
      · exact List.subset_append_of_subset_right _ (ihRight hg)

end All

/-- What is not reached calls nothing. -/
theorem tickets_eq_nil {h : History σ ω} (absent : h.visit? = none) : h.tickets = [] := by
  cases h with
  | unreached => rfl
  | _ => cases absent

end History

namespace Machine

variable (m : Machine σ ω)

/-! ## Writing it down -/

/-- The history of a plan when it has been started. -/
def recorded (plan : Plan) (v : Val) (w : World σ ω) : History σ ω :=
  let visit : Visit σ ω := ⟨v, w, (m.start plan v w).1.result?⟩
  match plan with
  | .task site => .task visit site (if w.stopped then none else some w.calls.length)
  | .named site body => .named visit site (recorded body v w)
  | .seq outer inner =>
    match m.start inner v w with
    | (.done (.ok x), w') => .seq visit (recorded outer x w') (recorded inner v w)
    | _ => .seq visit (.unreached outer) (recorded inner v w)
  | .par left right =>
    let l := m.start left v (w.enter false)
    if m.ends l.1 then .par visit (recorded left v (w.enter false)) (.unreached right)
    else .par visit (recorded left v (w.enter false)) (recorded right v l.2)

/-- The history of a process when its calls have been settled.  A composition whose second stage is
reached has no process of its own any more. -/
def updated (settle : Call → World σ ω → Process × World σ ω) :
    History σ ω → Process → World σ ω → History σ ω
  | h, .done _, _ => h
  | .task visit site ticket, p, w => .task (visit.upTo (m.resume settle p w).1) site ticket
  | .named visit site body, .named site' p, w =>
    .named (visit.upTo (m.resume settle (.named site' p) w).1) site (updated settle body p w)
  | .seq visit (.unreached _) inner, .seq outer p, w =>
    let visit := visit.upTo (m.resume settle (.seq outer p) w).1
    match m.resume settle p w with
    | (.done (.ok x), w') => .seq visit (m.recorded outer x w') (updated settle inner p w)
    | _ => .seq visit (.unreached outer) (updated settle inner p w)
  | .seq visit outer inner, p, w =>
    .seq (visit.upTo (m.resume settle p w).1) (updated settle outer p w) inner
  | .par visit left right, .par flag p q, w =>
    let visit := visit.upTo (m.resume settle (.par flag p q) w).1
    let l := m.resume settle p (w.enter flag)
    if m.ends l.1 then .par visit (updated settle left p (w.enter flag)) right
    else .par visit (updated settle left p (w.enter flag)) (updated settle right q l.2)
  | h, _, _ => h

/-- The history at the end of an instant. -/
def updatedAt (h : History σ ω) (p : Process) (w : World σ ω) : History σ ω :=
  let r := m.resume m.settle p w
  m.updated settleStopped (m.updated m.settle h p w) r.1 r.2

/-- The history at the end of a run that goes on from here. -/
def historyFrom (cancelAt : Option Nat) (h : History σ ω) (p : Process) (w : World σ ω) :
    History σ ω :=
  match e : p.nextWake with
  | none => h
  | some t =>
    have := fun c ↦ m.remaining_tick_lt (w := { w with clock := t }) c (Process.due_nextWake e)
    match cancelAt with
    | none =>
      let r := m.tick p { w with clock := t }
      historyFrom none (m.updatedAt h p { w with clock := t }) r.1 r.2
    | some c =>
      if c ≤ t then
        let w := { w with clock := c, cancelled := true }
        have := m.remaining_sweep_lt c p w
        let r := m.sweep p w
        historyFrom none (m.updated settleStopped h p w) r.1 r.2
      else
        let r := m.tick p { w with clock := t }
        historyFrom (some c) (m.updatedAt h p { w with clock := t }) r.1 r.2
termination_by remaining cancelAt p
decreasing_by
  · exact this none
  · exact this
  · exact this (some c)

/-- The history of a run. -/
def history (plan : Plan) (input : Val) (s : σ) (o : ω) (clock : Nat) (cancelAfter : Option Nat) :
    History σ ω :=
  let w := initial s o clock cancelAfter
  let (p, w') := m.start plan input w
  let r := m.sweep p w'
  let h := m.updated settleStopped (m.recorded plan input w) p w'
  m.historyFrom (cancelAt clock cancelAfter) h r.1 r.2

variable {m}

/-- What holds of the history, the process and the world whenever a run comes to rest holds when it
ends.  It comes to rest when all that is cancelled has been given up: after its start, after the ends
of calls and after the caller's cancellation.  What holds at the moment before may be less. -/
theorem history_spec {I J : History σ ω → Process → World σ ω → Prop} {plan : Plan} {input : Val}
    {s : σ} {o : ω} {clock : Nat} {cancelAfter : Option Nat}
    (start : ∀ {p w}, m.Starts plan input (initial s o clock cancelAfter) p w →
      J (m.recorded plan input (initial s o clock cancelAfter)) p w)
    (sweep : ∀ {h p w p' w'}, J h p w → m.Resumes settleStopped p w p' w' →
      I (m.updated settleStopped h p w) p' w')
    (settle : ∀ {h p w t p' w'}, I h p w → p.nextWake = some t →
      m.Resumes m.settle p { w with clock := t } p' w' →
      J (m.updated m.settle h p { w with clock := t }) p' w')
    (cancel : ∀ {h p w t c}, I h p w → p.nextWake = some t → cancelAfter.map (clock + ·) = some c →
      w.clock ≤ c → c ≤ t → J h p { w with clock := c, cancelled := true }) :
    I (m.history plan input s o clock cancelAfter)
      (.done (m.run plan input s o clock cancelAfter).1)
      (m.run plan input s o clock cancelAfter).2 := by
  have tick {h : History σ ω} {p : Process} {w : World σ ω} {t : Nat} (inv : I h p w)
      (wake : p.nextWake = some t) :
      I (m.updatedAt h p { w with clock := t }) (m.tick p { w with clock := t }).1
        (m.tick p { w with clock := t }).2 :=
    sweep (settle inv wake (m.resumes _ _ _)) (m.resumes _ _ _)
  have proceed (cancelAt : Option Nat) (h : History σ ω) (p : Process) (w : World σ ω)
      (settled : m.Settled p) (inv : I h p w)
      (before : ∀ c, cancelAt = some c → cancelAfter.map (clock + ·) = some c ∧ w.clock ≤ c) :
      I (m.historyFrom cancelAt h p w) (.done (m.proceed cancelAt p w).1)
        (m.proceed cancelAt p w).2 := by
    fun_induction historyFrom m cancelAt h p w with
    | case1 cancelAt h p w quiet =>
      rw [m.proceed_of_quiet _ _ quiet, ← Process.eq_done_of_isDone (settled.isDone quiet)]
      exact inv
    | case2 h p w t wake _ r ih =>
      have never : ∀ c, none = some c → t < c := by
        rintro c ⟨⟩
      rw [m.proceed_of_wake w wake never]
      refine ih (m.settled_sweep _ _) (tick inv wake) ?_
      rintro c ⟨⟩
    | case3 h p w t wake _ c due w' _ r ih =>
      rw [m.proceed_of_cancel w wake due]
      obtain ⟨at', later⟩ := before c rfl
      refine ih (m.settled_sweep _ _) (sweep (cancel inv wake at' later due) ?_) ?_
      · exact m.resumes _ _ _
      · rintro c' ⟨⟩
    | case4 h p w t wake _ c late r ih =>
      have sooner : ∀ c', some c = some c' → t < c' := by
        rintro c' ⟨⟩
        exact Nat.not_le.1 late
      rw [m.proceed_of_wake w wake sooner]
      refine ih (m.settled_sweep _ _) (tick inv wake) fun c' same ↦ ?_
      rw [clock_tick]
      exact ⟨(before c' same).1, Nat.le_of_lt (sooner c' same)⟩
  rw [run_eq_proceed]
  refine proceed _ _ _ _ (m.settled_sweep _ _)
    (sweep (start (m.starts _ _ _)) (m.resumes _ _ _)) fun c at' ↦ ⟨?_, ?_⟩
  · exact map_of_cancelAt at'
  · exact Nat.le_trans (Nat.le_of_eq (clock_begun m _ _ _ _ _ _)) (le_of_cancelAt at')

end Machine

/-! ## What goes on -/

/-- Whether an evaluation goes on.  None goes on that has begun in a cancelled scope. -/
structure Visit.GoesOn (visit : Visit σ ω) : Prop where
  result : visit.result = none
  live : visit.world.stopped = false

theorem Visit.GoesOn.upTo {visit : Visit σ ω} {p : Process} (live : visit.world.stopped = false)
    (pending : p.isDone = false) : (visit.upTo p).GoesOn :=
  ⟨Process.result?_of_pending pending, live⟩

/-- Which process a history is the history of. -/
inductive History.Tracks (w : World σ ω) : History σ ω → Process → Prop
  | done {h : History σ ω} {r : Except RunError Val} :
    h.result? = some r → w.OpenAmong h.tickets [] → Tracks w h (.done r)
  | call {visit : Visit σ ω} {c : Call} :
    visit.GoesOn → w.OpenAmong [c.ticket] [c] →
      Tracks w (.task visit c.site (some c.ticket)) (.call c)
  | named {visit : Visit σ ω} {site : Site} {body : History σ ω} {p : Process} :
    visit.GoesOn → Tracks w body p → Tracks w (.named visit site body) (.named site p)
  | first {visit : Visit σ ω} {outer : Plan} {inner : History σ ω} {p : Process} :
    visit.GoesOn → Tracks w inner p → Tracks w (.seq visit (.unreached outer) inner) (.seq outer p)
  | second {visit : Visit σ ω} {outer inner : History σ ω} {p : Process} :
    visit.GoesOn → Tracks w outer p → p.isDone = false → w.OpenAmong inner.tickets [] →
      Tracks w (.seq visit outer inner) p
  | par {visit : Visit σ ω} {flag : Bool} {left right : History σ ω} {p q : Process} :
    visit.GoesOn → Tracks w left p → Tracks w right q →
      Tracks w (.par visit left right) (.par flag p q)

namespace History.Tracks

variable {u w w' : World σ ω} {h : History σ ω} {p : Process}

theorem precedes (tracks : Tracks u h p) (precedes : u.Precedes w) : Tracks w h p := by
  induction tracks with
  | done result closed => exact .done result (closed.precedes precedes)
  | call goesOn entry => exact .call goesOn (entry.precedes precedes)
  | named goesOn _ ih => exact .named goesOn ih
  | first goesOn _ ih => exact .first goesOn ih
  | second goesOn _ pending closed ih =>
    exact .second goesOn ih pending (closed.precedes precedes)
  | par goesOn _ _ ihLeft ihRight => exact .par goesOn ihLeft ihRight

/-- A history and its process have ended alike. -/
theorem result?_eq (tracks : Tracks w h p) : h.result? = p.result? := by
  induction tracks with
  | done result => exact result
  | call goesOn | named goesOn | first goesOn | par goesOn => exact goesOn.result
  | second goesOn _ pending => exact goesOn.result.trans (Process.result?_of_pending pending).symm

theorem visited (tracks : Tracks w h p) : ∃ visit, h.visit? = some visit := by
  cases tracks with
  | done result =>
    obtain ⟨visit, visited, -⟩ := Option.bind_eq_some_iff.1 result
    exact ⟨visit, visited⟩
  | call | named | first | second | par => exact ⟨_, rfl⟩

/-- Of the calls that were made for a history only those of its process go on. -/
theorem openAmong (tracks : Tracks w h p) : w.OpenAmong h.tickets p.calls := by
  induction tracks with
  | done _ closed => exact closed
  | call _ entry => exact entry
  | named _ _ ih => exact ih
  | first _ _ ih =>
    rw [tickets, tickets, List.append_nil]
    exact ih
  | second _ _ _ closed ih => exact closed.append ih
  | par _ _ _ ihLeft ihRight => exact ihLeft.append ihRight

end History.Tracks

namespace Machine

variable {m : Machine σ ω} {s : σ} {w w' : World σ ω} {plan : Plan} {v : Val}
  {p p' q r : Process} {F : List Call}

/-! ## The tickets that an instant adds -/

@[simp] theorem plan_recorded (plan : Plan) (v : Val) (w : World σ ω) :
    (m.recorded plan v w).plan = plan := by
  induction plan generalizing v w with
  | task => rfl
  | named site body ih => simp [recorded, History.plan, ih]
  | seq outer inner ihOuter ihInner =>
    rw [recorded]
    split <;> simp [History.plan, ihInner, ihOuter]
  | par left right ihLeft ihRight =>
    simp only [recorded]
    split <;> simp [History.plan, ihLeft, ihRight]

theorem visit?_recorded (plan : Plan) (v : Val) (w : World σ ω) :
    (m.recorded plan v w).visit? = some ⟨v, w, (m.start plan v w).1.result?⟩ := by
  cases plan with
  | task | named => rfl
  | seq =>
    rw [recorded]
    split <;> rfl
  | par =>
    simp only [recorded]
    split <;> rfl

/-- Whether the calls that are made from one world to another are added to some tickets. -/
def AddsTickets (w w' : World σ ω) (before after : List Nat) : Prop :=
  ∃ k, w'.calls.length = w.calls.length + k ∧
    after.Perm (before ++ List.range' w.calls.length k)

namespace AddsTickets

variable {u u' : World σ ω} {is is' js js' : List Nat}

theorem of_made_eq (same : w'.made = w.made) : AddsTickets w w' is is := by
  refine ⟨0, ?_, by simp⟩
  simpa using congrArg List.length same

theorem trans (h : AddsTickets w u is is') (h' : AddsTickets u w' js js') :
    AddsTickets w w' (is ++ js) (is' ++ js') := by
  obtain ⟨k, length, perm⟩ := h
  obtain ⟨k', length', perm'⟩ := h'
  refine ⟨k + k', by omega, (perm.append perm').trans ?_⟩
  rw [length, List.append_assoc, List.append_assoc, ← List.range'_append_1]
  exact List.Perm.append_left is (List.perm_append_comm_assoc _ _ _)

/-- What a world has made of its log counts alone. -/
theorem congr (h : AddsTickets w w' is is') (same : u.made = w.made) (same' : u'.made = w'.made) :
    AddsTickets u u' is is' := by
  obtain ⟨k, length, perm⟩ := h
  have before : u.calls.length = w.calls.length := by simpa using congrArg List.length same
  have after : u'.calls.length = w'.calls.length := by simpa using congrArg List.length same'
  exact ⟨k, by omega, by rwa [before]⟩

theorem le_of_mem (h : AddsTickets w w' is is') {i : Nat} (hi : i ∈ is') :
    i ∈ is ∨ w.calls.length ≤ i := by
  obtain ⟨k, -, perm⟩ := h
  rcases List.mem_append.1 (perm.mem_iff.1 hi) with hi | hi
  · exact .inl hi
  · exact .inr (List.mem_range'_1.1 hi).1

theorem mem (h : AddsTickets w w' is is') {i : Nat} (hi : i ∈ is) : i ∈ is' := by
  obtain ⟨k, -, perm⟩ := h
  exact perm.mem_iff.2 (List.mem_append_left _ hi)

end AddsTickets

theorem Calls.addsTickets {site : Site} (h : m.Calls site v w p w') :
    AddsTickets w w' [] (m.recorded (.task site) v w).tickets := by
  have asked : (m.asked site v w).calls.length = w.calls.length + 1 := by simp [Machine.asked]
  rw [recorded, History.tickets]
  cases h with
  | stopped stopped =>
    rw [if_pos stopped]
    exact .of_made_eq rfl
  | now live =>
    rw [if_neg (by simp [live])]
    refine ⟨1, ?_, .refl _⟩
    rw [← World.length_made, made_finish, World.length_made]
    exact asked
  | wait live =>
    rw [if_neg (by simp [live])]
    exact ⟨1, asked, .refl _⟩

/-- A composition does not come to its second stage while its first one goes on. -/
theorem Starts.recorded_wait {outer inner : Plan} {v : Val} (first : m.Starts inner v w p w')
    (pending : p.isDone = false) : m.recorded (.seq outer inner) v w =
      .seq ⟨v, w, none⟩ (.unreached outer) (m.recorded inner v w) := by
  have start : m.start (.seq outer inner) v w = _ := (Starts.seqWait first pending).eq
  rw [recorded, start]
  simp only [first.eq]
  cases p with
  | done => cases pending
  | _ => rfl

/-- The tickets of a plan that is started are those of the calls that this makes. -/
theorem Starts.addsTickets {plan : Plan} {v : Val} (h : m.Starts plan v w p w') :
    AddsTickets w w' [] (m.recorded plan v w).tickets := by
  induction h with
  | task => exact (m.calls _ _ _).addsTickets
  | named _ leaves ih => exact ih.congr rfl leaves.made_eq
  | seqOk inner _ ihInner ihOuter =>
    simp only [recorded, inner.eq, History.tickets]
    exact ihInner.trans ihOuter
  | seqError inner ih =>
    simp only [recorded, inner.eq, History.tickets, List.append_nil]
    exact ih
  | seqWait first pending ih =>
    rw [first.recorded_wait pending, History.tickets, History.tickets, List.append_nil]
    exact ih
  | parEnds left ends ih =>
    simp only [recorded, left.eq, ends, if_true, History.tickets, List.append_nil]
    exact ih.congr rfl (World.made_leave _)
  | par left notLeft _ joins ihLeft ihRight =>
    simp only [recorded, left.eq, notLeft, Bool.false_eq_true, if_false, History.tickets]
    exact (ihLeft.trans ihRight).congr rfl joins.made_eq

/-! ## A plan that is started -/

theorem Starts.live (h : m.Starts plan v w p w') (pending : p.isDone = false) :
    w.stopped = false := by
  refine Bool.eq_false_iff.2 fun stopped ↦ ?_
  rw [(h.of_stopped stopped).1] at pending
  cases pending

theorem exists_finish_eq_done (m : Machine σ ω) (c : Call) (w : World σ ω) :
    ∃ r, (m.finish c w).1 = .done r :=
  ⟨_, Process.eq_done_of_isDone (isDone_finish c w)⟩

/-- A functor name has the calls of its body. -/
theorem Leaves.tracks {site : Site} (h : m.Leaves site p w q w') (visit : Visit σ ω)
    {body : History σ ω} (tracks : body.Tracks w p)
    (live : q.isDone = false → visit.world.stopped = false) :
    (History.named (visit.upTo q) site body).Tracks w' q := by
  cases h with
  | @ok v w =>
    have same := (m.observe_sameLog site v w).2
    rw [Process.eq_done_of_isDone (isDone_observe site v w)]
    exact .done rfl (tracks.openAmong.precedes (.of_sameLog same))
  | error => exact .done rfl tracks.openAmong
  | wait pending => exact .named (.upTo (live rfl) rfl) tracks

/-- A product has the calls of its branches. -/
theorem Joins.tracks (h : m.Joins w p q r w') (visit : Visit σ ω) {left right : History σ ω}
    (tracksLeft : left.Tracks w p) (tracksRight : right.Tracks w q)
    (live : r.isDone = false → visit.world.stopped = false) :
    (History.par (visit.upTo r) left right).Tracks w' r := by
  have both := tracksLeft.openAmong.append tracksRight.openAmong
  cases h with
  | ok | left | right => exact .done rfl (both.precedes (.of_sameLog ⟨rfl, rfl, rfl⟩))
  | dropLeft =>
    rw [Process.calls, List.append_nil] at both
    exact .done rfl (both.drop.precedes (.of_sameLog ⟨rfl, rfl, rfl⟩))
  | dropRight => exact .done rfl (both.drop.precedes (.of_sameLog ⟨rfl, rfl, rfl⟩))
  | wait =>
    have same : w.Precedes w.leave := .of_sameLog ⟨rfl, rfl, rfl⟩
    exact .par (.upTo (live rfl) rfl) (tracksLeft.precedes same) (tracksRight.precedes same)

/-- A composition has the calls of its second stage once it has come to it. -/
theorem tracks_second (visit : Visit σ ω) {outer inner : History σ ω} (tracks : outer.Tracks w p)
    (closed : w.OpenAmong inner.tickets [])
    (live : p.isDone = false → visit.world.stopped = false) :
    (History.seq (visit.upTo p) outer inner).Tracks w p := by
  cases pending : p.isDone with
  | true =>
    rw [Process.eq_done_of_isDone pending] at tracks ⊢
    exact .done rfl (closed.append tracks.openAmong)
  | false => exact .second (.upTo (live pending) pending) tracks pending closed

/-- The call of a task has an entry of its own. -/
theorem asked_openAmong (m : Machine σ ω) (site : Site) (v : Val) (w : World σ ω) :
    (m.asked site v w).OpenAmong [w.calls.length] [m.called site v w] := by
  intro i hi
  obtain rfl := List.mem_singleton.1 hi
  exact ⟨_, List.getElem?_concat_length, fun _ ↦ ⟨_, List.mem_cons_self, rfl⟩⟩

theorem Calls.tracks {site : Site} (h : m.Calls site v w p w') :
    (History.task ⟨v, w, p.result?⟩ site (if w.stopped then none else some w.calls.length)).Tracks
      w' p := by
  have entry := m.asked_openAmong site v w
  cases h with
  | stopped stopped =>
    rw [if_pos stopped]
    exact .done rfl nofun
  | now live due =>
    have closed := finish_keeps (World.OpenAmong.bookkeeping m [w.calls.length]) entry due
    obtain ⟨r, done⟩ := m.exists_finish_eq_done (m.called site v w) (m.asked site v w)
    rw [if_neg (by simp [live])]
    rw [done] at closed ⊢
    exact .done rfl closed
  | wait live =>
    rw [if_neg (by simp [live])]
    exact .call (c := m.called site v w) ⟨rfl, live⟩ entry

/-- The history of a plan that is started has the calls of its process. -/
theorem Starts.tracks (h : m.Starts plan v w p w') (annals : Annals m.executor s w F) :
    (m.recorded plan v w).Tracks w' p := by
  have start := h.eq
  have live := h.live
  -- What has been made of a part stays true while the others are started, since the annals go from
  -- one to the next.
  induction h generalizing F with
  | task => exact (m.calls _ _ _).tracks
  | named body leaves ih =>
    rw [recorded, start]
    exact leaves.tracks ⟨_, _, none⟩ (ih annals body.eq body.live) live
  | seqOk inner outer ihInner ihOuter =>
    obtain ⟨annals', -⟩ := inner.annals annals
    obtain ⟨-, precedes⟩ := outer.annals annals'
    have closed := (ihInner annals inner.eq inner.live).openAmong.precedes precedes
    simp only [recorded, inner.eq, start]
    exact tracks_second ⟨_, _, none⟩ (ihOuter annals' outer.eq outer.live) closed live
  | seqError inner ih =>
    simp only [recorded, inner.eq, start]
    refine .done rfl ?_
    rw [History.tickets, History.tickets, List.append_nil]
    exact (ih annals inner.eq inner.live).openAmong
  | seqWait first pending ih =>
    rw [first.recorded_wait pending]
    exact .first ⟨rfl, live rfl⟩ (ih annals first.eq first.live)
  | @parEnds left right v w l w₁ first ends ih =>
    obtain ⟨e, rfl, -⟩ := m.ends_iff.1 ends
    have closed := (ih (annals.same (.enter _ _)) first.eq first.live).openAmong
    simp only [recorded, first.eq, ends, if_true, start]
    refine .done rfl ?_
    rw [History.tickets, History.tickets, List.append_nil]
    exact closed.precedes (.of_sameLog (.leave _))
  | par left notLeft right joins ihLeft ihRight =>
    obtain ⟨annals', -⟩ := left.annals (annals.same (.enter _ _))
    obtain ⟨-, precedes⟩ := right.annals annals'
    have tracksLeft := (ihLeft (annals.same (.enter _ _)) left.eq left.live).precedes precedes
    simp only [recorded, left.eq, notLeft, Bool.false_eq_true, if_false, start]
    exact joins.tracks ⟨_, _, none⟩ tracksLeft (ihRight annals' right.eq right.live) live

/-! ## A process that is resumed -/

variable {settle : Call → World σ ω → Process × World σ ω} {u : World σ ω} {h : History σ ω}

@[simp] theorem updated_done (h : History σ ω) (r : Except RunError Val) (w : World σ ω) :
    m.updated settle h (.done r) w = h := by
  cases h <;> rfl

theorem Resumes.updated_wait {visit : Visit σ ω} {plan outer : Plan} {inner : History σ ω}
    (first : m.Resumes settle p w q w') (pending : q.isDone = false) :
    m.updated settle (.seq visit (.unreached plan) inner) (.seq outer p) w =
      .seq (visit.upTo (.seq outer q)) (.unreached outer) (m.updated settle inner p w) := by
  have resume : m.resume settle (.seq outer p) w = _ := (Resumes.seqWait first pending).eq
  rw [updated, resume]
  simp only [first.eq]
  cases q with
  | done => cases pending
  | _ => rfl

/-- Once a composition has come to its second stage, its process is that of this stage. -/
theorem updated_second {visit : Visit σ ω} {outer inner : History σ ω} (tracks : outer.Tracks u p)
    (pending : p.isDone = false) : m.updated settle (.seq visit outer inner) p w =
      .seq (visit.upTo (m.resume settle p w).1) (m.updated settle outer p w) inner := by
  cases tracks with
  | done => cases pending
  | second _ tracks =>
    cases p with
    | done => cases pending
    | _ => rfl
  | _ => rfl

theorem plan_updated (tracks : h.Tracks u p) (w : World σ ω) :
    (m.updated settle h p w).plan = h.plan := by
  induction tracks generalizing w with
  | done => rw [updated_done]
  | call => rfl
  | named _ _ ih => simp only [updated, History.plan, ih]
  | first _ _ ih =>
    rw [updated]
    split <;> simp [History.plan, ih]
  | second _ tracks pending _ ih =>
    rw [updated_second tracks pending, History.plan, History.plan, ih]
  | par _ _ _ ihLeft ihRight =>
    simp only [updated]
    split <;> simp [History.plan, ihLeft, ihRight]

theorem Settles.made_eq {c : Call} (h : m.Settles c w p w') : w'.made = w.made := by
  cases h with
  | wait => rfl
  | finish => exact made_finish _ _
  | giveUp => exact World.made_close _ _ _

/-- The tickets of a process that is resumed are those that it had and those of the calls that this
makes. -/
theorem addsTickets_updated (settling : m.Settling settle) (tracks : h.Tracks u p)
    (resumes : m.Resumes settle p w p' w') :
    AddsTickets w w' h.tickets (m.updated settle h p w).tickets := by
  induction tracks generalizing w p' w' with
  | done =>
    cases resumes
    rw [updated_done]
    exact .of_made_eq rfl
  | call =>
    cases resumes
    exact .of_made_eq (settling _ _).made_eq
  | named _ _ ih =>
    cases resumes with
    | named body leaves => exact (ih body).congr rfl leaves.made_eq
  | first _ _ ih =>
    cases resumes with
    | seqOk inner outer =>
      simp only [updated, inner.eq, History.tickets]
      exact (ih inner).trans outer.addsTickets
    | seqError inner =>
      simp only [updated, inner.eq, History.tickets, List.append_nil]
      exact ih inner
    | seqWait inner pending =>
      simp only [inner.updated_wait pending, History.tickets, List.append_nil]
      exact ih inner
  | second _ tracks pending _ ih =>
    rw [updated_second tracks pending, History.tickets, History.tickets]
    exact (AddsTickets.of_made_eq rfl).trans (ih resumes)
  | par _ _ _ ihLeft ihRight =>
    cases resumes with
    | parEnds left ends =>
      simp only [updated, left.eq, ends, if_true, History.tickets]
      refine AddsTickets.congr ((ihLeft left).trans (.of_made_eq rfl)) rfl ?_
      rw [World.made_leave, Process.made_drop]
    | par left notLeft right joins =>
      simp only [updated, left.eq, notLeft, Bool.false_eq_true, if_false, History.tickets]
      exact ((ihLeft left).trans (ihRight right)).congr rfl joins.made_eq

theorem Settles.tracks {visit : Visit σ ω} {c : Call} (h : m.Settles c w p w')
    (live : visit.world.stopped = false) (entry : w.OpenAmong [c.ticket] [c]) :
    (History.task (visit.upTo p) c.site (some c.ticket)).Tracks w' p := by
  cases h with
  | wait => exact .call (.upTo live rfl) entry
  | finish due =>
    have closed := finish_keeps (World.OpenAmong.bookkeeping m [c.ticket]) entry due
    obtain ⟨r, done⟩ := m.exists_finish_eq_done c w
    rw [done] at closed ⊢
    exact .done rfl closed
  | giveUp => exact .done rfl (entry.close _)

/-- The history of a process that is resumed has the calls of what becomes of it. -/
theorem tracks_updated (settling : m.Settling settle) (tracks : h.Tracks u p)
    (precedes : u.Precedes w) (resumes : m.Resumes settle p w p' w')
    (annals : Annals m.executor s w (p.calls ++ F)) : (m.updated settle h p w).Tracks w' p' := by
  have resume := resumes.eq
  -- The induction is on how the history tracks the process and not on how this is resumed: when a
  -- composition has come to its second stage, its process does not show that there was a first one.
  induction tracks generalizing w p' w' F with
  | done result closed =>
    cases resumes
    rw [updated_done]
    exact .done result (closed.precedes precedes)
  | call goesOn entry =>
    cases resumes
    exact (settling _ _).tracks goesOn.live (entry.precedes precedes)
  | named goesOn tracks ih =>
    cases resumes with
    | named body leaves =>
      rw [updated, resume]
      exact leaves.tracks _ (ih precedes body annals body.eq) fun _ ↦ goesOn.live
  | first goesOn tracks ih =>
    cases resumes with
    | seqOk inner outer =>
      obtain ⟨annals', -⟩ := inner.annals settling annals
      obtain ⟨-, precedes'⟩ := outer.annals annals'
      have closed := (ih precedes inner annals inner.eq).openAmong.precedes precedes'
      simp only [updated, inner.eq, resume]
      exact tracks_second _ (outer.tracks annals') closed fun _ ↦ goesOn.live
    | seqError inner =>
      simp only [updated, inner.eq, resume]
      refine .done rfl ?_
      rw [History.tickets, History.tickets, List.append_nil]
      exact (ih precedes inner annals inner.eq).openAmong
    | seqWait inner pending =>
      rw [inner.updated_wait pending]
      exact .first (.upTo goesOn.live rfl) (ih precedes inner annals inner.eq)
  | second goesOn tracks pending closed ih =>
    obtain ⟨-, precedes'⟩ := resumes.annals settling annals
    rw [updated_second tracks pending, resume]
    refine tracks_second _ (ih precedes resumes annals resume) ?_ fun _ ↦ goesOn.live
    exact closed.precedes (precedes.trans precedes')
  | @par _ flag _ _ _ _ goesOn _ tracksRight ihLeft ihRight =>
    rw [Process.calls, List.append_assoc] at annals
    have entered := annals.same (.enter _ flag)
    have precedes := precedes.trans (.of_sameLog (.enter _ flag))
    cases resumes with
    | parEnds left ends =>
      obtain ⟨e, rfl, -⟩ := m.ends_iff.1 ends
      obtain ⟨-, precedes'⟩ := left.annals settling entered
      have tracksRight := tracksRight.precedes (precedes.trans precedes')
      have both := (ihLeft precedes left entered left.eq).openAmong.append tracksRight.openAmong
      simp only [updated, left.eq, ends, if_true, resume]
      exact .done rfl (both.drop.precedes (.of_sameLog (.leave _)))
    | par left notLeft right joins =>
      -- What the left branch has left open stands beside the calls of the right one.
      obtain ⟨annals', precedes'⟩ := left.annals settling entered
      have beside := annals'.perm (List.perm_append_comm_assoc _ _ _)
      obtain ⟨-, precedes''⟩ := right.annals settling beside
      have tracksLeft := (ihLeft precedes left entered left.eq).precedes precedes''
      have tracksRight := ihRight (precedes.trans precedes') right beside right.eq
      simp only [updated, left.eq, notLeft, Bool.false_eq_true, if_false, resume]
      exact joins.tracks _ tracksLeft tracksRight fun _ ↦ goesOn.live

end Machine

end Taskflow
