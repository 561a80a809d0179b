import Taskflow.Proofs.Run.Steps
import Taskflow.Proofs.Run.World

/-!
# The log and the calls that go on

A run does three things to its log: it opens an entry for a call, it closes the entry of a call that
is over, and it closes the entry of a call that it gives up.  A `Bookkeeping` is a relation between
the world and the calls that go on which all three keep, so every run keeps it (`run_keeps`).

The first one is the `Ledger`: the open entries of the log are the calls that go on, each with the
reply that the executor gave when it was asked for that entry.  As nothing goes on when a run ends,
its log has no open entry then (`Ledger.of_run`, `Ledger.ending_isSome`).
-/

namespace Taskflow

variable {σ ω : Type}

/-- The calls that go on in a process. -/
def Process.calls : Process → List Call
  | .done _ => []
  | .call c => [c]
  | .named _ body => body.calls
  | .seq _ inner => inner.calls
  | .par _ left right => left.calls ++ right.calls

/-- Nothing goes on in a process that waits for nothing. -/
theorem Process.calls_eq_nil {p : Process} (h : p.nextWake = none) : p.calls = [] := by
  induction p with
  | done => rfl
  | call => cases h
  | named site body ih => exact ih h
  | seq outer inner ih => exact ih h
  | par flag left right ihLeft ihRight =>
    rw [nextWake] at h
    split at h
    next => cases h
    next => cases h
    next none => rw [calls, ihLeft none, ihRight h, List.append_nil]

/-- A process waits until the first of its calls is over. -/
theorem Process.nextWake_spec {p : Process} {t : Nat} (h : p.nextWake = some t) :
    (∀ c ∈ p.calls, t ≤ c.wake) ∧ ∃ c ∈ p.calls, c.wake = t := by
  induction p generalizing t with
  | done => cases h
  | call c =>
    cases h
    simp [calls]
  | named site body ih => exact ih h
  | seq outer inner ih => exact ih h
  | par flag left right ihLeft ihRight =>
    rw [nextWake] at h
    split at h
    next a b ha hb =>
      cases h
      obtain ⟨leLeft, c, hc, wakeLeft⟩ := ihLeft ha
      obtain ⟨leRight, d, hd, wakeRight⟩ := ihRight hb
      constructor
      · intro x hx
        rcases List.mem_append.1 hx with hx | hx
        · exact Nat.le_trans (Nat.min_le_left a b) (leLeft x hx)
        · exact Nat.le_trans (Nat.min_le_right a b) (leRight x hx)
      · by_cases le : a ≤ b
        · exact ⟨c, List.mem_append_left _ hc, by rw [wakeLeft, Nat.min_eq_left le]⟩
        · exact ⟨d, List.mem_append_right _ hd, by rw [wakeRight, Nat.min_eq_right (by omega)]⟩
    next a ha hb =>
      cases h
      rw [calls, calls_eq_nil hb, List.append_nil]
      exact ihLeft ha
    next ha =>
      rw [calls, calls_eq_nil ha]
      exact ihRight h

/-- Whether two worlds agree on all that the log is about. -/
structure World.SameLog (w w' : World σ ω) : Prop where
  executor : w'.executor = w.executor
  clock : w'.clock = w.clock
  calls : w'.calls = w.calls

/-- The call of a task at the present instant, with the reply that the executor gives. -/
def Machine.called (m : Machine σ ω) (site : Site) (input : Val) (w : World σ ω) : Call :=
  let reply := (m.executor.respond site.name input w.executor).1
  ⟨w.calls.length, site, input, w.clock + reply.delay, reply⟩

/-- The world when the executor has been asked for that reply. -/
def Machine.asked (m : Machine σ ω) (site : Site) (input : Val) (w : World σ ω) : World σ ω :=
  { w with
    executor := (m.executor.respond site.name input w.executor).2
    calls := w.calls ++ [⟨site.name, input, w.clock, none⟩] }

/-- What is kept by all that a run does to its log.  The order of the calls that go on does not
matter. -/
structure Bookkeeping (m : Machine σ ω) (K : World σ ω → List Call → Prop) : Prop where
  same : ∀ {w w' cs}, K w cs → w.SameLog w' → K w' cs
  perm : ∀ {w cs cs'}, K w cs → cs.Perm cs' → K w cs'
  ask : ∀ {w cs} site input, K w cs → K (m.asked site input w) (m.called site input w :: cs)
  finish : ∀ {w c cs}, K w (c :: cs) → c.wake ≤ w.clock → K (w.close c.ticket c.outcome) cs
  giveUp : ∀ {w c cs}, K w (c :: cs) → m.policy = .failFast → K (w.close c.ticket .dropped) cs

namespace Machine

variable {m : Machine σ ω} {K : World σ ω → List Call → Prop} {w w' : World σ ω} {F : List Call}

theorem observe_sameLog (m : Machine σ ω) (site : Site) (v : Val) (w : World σ ω) :
    (m.observe site v w).1.calls = [] ∧ w.SameLog (m.observe site v w).2 := by
  unfold observe
  split <;> exact ⟨rfl, rfl, rfl, rfl⟩

theorem finish_keeps (books : Bookkeeping m K) {c : Call} (k : K w (c :: F))
    (due : c.wake ≤ w.clock) : K (m.finish c w).2 ((m.finish c w).1.calls ++ F) := by
  have closed : K ((w.cancelBy c.reply).close c.ticket c.outcome) F := by
    refine books.same (books.finish k due) ⟨?_, ?_, ?_⟩ <;> simp [World.close]
  unfold finish
  dsimp only
  split
  · obtain ⟨none, same⟩ :=
      m.observe_sameLog c.site _ ((w.cancelBy c.reply).close c.ticket c.outcome)
    rw [none]
    exact books.same closed same
  · exact closed

/-- What becomes of a call of a task. -/
inductive Calls (m : Machine σ ω) (site : Site) (input : Val) (w : World σ ω) :
    Process → World σ ω → Prop
  | stopped : w.stopped = true → Calls m site input w (.done (.error .cancelled)) w
  | now : w.stopped = false → (m.called site input w).wake ≤ (m.asked site input w).clock →
    Calls m site input w (m.finish (m.called site input w) (m.asked site input w)).1
      (m.finish (m.called site input w) (m.asked site input w)).2
  | wait : w.stopped = false → 0 < (m.called site input w).reply.delay →
    Calls m site input w (.call (m.called site input w)) (m.asked site input w)

theorem calls (m : Machine σ ω) (site : Site) (input : Val) (w : World σ ω) :
    m.Calls site input w (m.begin site input w).1 (m.begin site input w).2 := by
  unfold begin
  split
  next stopped => exact .stopped stopped
  next live =>
    dsimp only
    split
    next now => exact .now (by simpa using live) (Nat.le_of_eq (congrArg (w.clock + ·) now))
    next waits => exact .wait (by simpa using live) (Nat.pos_of_ne_zero waits)

theorem Calls.keeps (books : Bookkeeping m K) {site : Site} {v : Val} {p : Process}
    (h : m.Calls site v w p w') (k : K w F) : K w' (p.calls ++ F) := by
  cases h with
  | stopped => exact k
  | now _ due => exact finish_keeps books (books.ask site v k) due
  | wait => exact books.ask site v k

theorem drop_keeps (giveUp : ∀ {w c cs}, K w (c :: cs) → K (w.close c.ticket .dropped) cs)
    {p : Process} (k : K w (p.calls ++ F)) : K (p.drop w) F := by
  induction p generalizing w F with
  | done => exact k
  | call c => exact giveUp k
  | named site body ih => exact ih k
  | seq outer inner ih => exact ih k
  | par flag left right ihLeft ihRight =>
    rw [Process.calls, List.append_assoc] at k
    exact ihRight (ihLeft k)

theorem Leaves.keeps (books : Bookkeeping m K) {site : Site} {p q : Process}
    (h : m.Leaves site p w q w') (k : K w (p.calls ++ F)) : K w' (q.calls ++ F) := by
  cases h with
  | ok =>
    obtain ⟨none, same⟩ := m.observe_sameLog site _ w
    rw [none]
    exact books.same k same
  | error | wait => exact k

theorem Joins.keeps (books : Bookkeeping m K) {left right q : Process}
    (h : m.Joins w left right q w') (k : K w (left.calls ++ (right.calls ++ F))) :
    K w' (q.calls ++ F) := by
  cases h with
  | ok | left | right => exact books.same k ⟨rfl, rfl, rfl⟩
  | dropLeft _ policy | dropRight _ policy =>
    exact books.same (drop_keeps (books.giveUp · policy) k) ⟨rfl, rfl, rfl⟩
  | wait =>
    rw [Process.calls, List.append_assoc]
    exact books.same k ⟨rfl, rfl, rfl⟩

/-- Starting a plan keeps the books. -/
theorem Starts.keeps (books : Bookkeeping m K) {plan : Plan} {v : Val} {p : Process}
    (h : m.Starts plan v w p w') (k : K w F) : K w' (p.calls ++ F) := by
  induction h generalizing F with
  | task => exact (m.calls _ _ _).keeps books k
  | named _ leaves ih => exact leaves.keeps books (ih k)
  | seqOk _ _ ihInner ihOuter => exact ihOuter (ihInner k)
  | seqError _ ih => exact ih k
  | seqWait _ _ ih => exact ih k
  | parEnds _ _ ih => exact books.same (ih (books.same k ⟨rfl, rfl, rfl⟩)) ⟨rfl, rfl, rfl⟩
  | par _ _ _ joins ihLeft ihRight =>
    have left := ihLeft (books.same k ⟨rfl, rfl, rfl⟩)
    exact joins.keeps books (books.perm (ihRight left) (List.perm_append_comm_assoc _ _ _))

/-- Resuming a process keeps the books, if settling a call does. -/
theorem Resumes.keeps (books : Bookkeeping m K)
    {settle : Call → World σ ω → Process × World σ ω}
    (settled : ∀ {c w F}, K w (c :: F) → K (settle c w).2 ((settle c w).1.calls ++ F))
    {p p' : Process} (h : m.Resumes settle p w p' w') (k : K w (p.calls ++ F)) :
    K w' (p'.calls ++ F) := by
  induction h generalizing F with
  | done => exact k
  | call => exact settled k
  | named _ leaves ih => exact leaves.keeps books (ih k)
  | seqOk _ starts ih => exact starts.keeps books (ih k)
  | seqError _ ih => exact ih k
  | seqWait _ _ ih => exact ih k
  | @parEnds flag left right w l w₁ _ ends ih =>
    obtain ⟨e, rfl, policy⟩ := m.ends_iff.1 ends
    rw [Process.calls, List.append_assoc] at k
    have left := ih (books.same k ⟨rfl, rfl, rfl⟩)
    exact books.same (drop_keeps (books.giveUp · policy) left) ⟨rfl, rfl, rfl⟩
  | par _ _ _ joins ihLeft ihRight =>
    rw [Process.calls, List.append_assoc] at k
    have left := ihLeft (books.same k ⟨rfl, rfl, rfl⟩)
    have right := ihRight (books.perm left (List.perm_append_comm_assoc _ _ _))
    exact joins.keeps books (books.perm right (List.perm_append_comm_assoc _ _ _))

theorem settleDue_keeps (books : Bookkeeping m K) {c : Call} (k : K w (c :: F)) :
    K (m.settleDue c w).2 ((m.settleDue c w).1.calls ++ F) := by
  unfold settleDue
  split
  next due => exact finish_keeps books k due
  next => exact k

theorem settleStopped_keeps
    (giveUp : ∀ {w c cs}, K w (c :: cs) → K (w.close c.ticket .dropped) cs) {c : Call}
    (k : K w (c :: F)) : K (settleStopped c w).2 ((settleStopped c w).1.calls ++ F) := by
  unfold settleStopped
  split
  · exact giveUp k
  · exact k

theorem settle_keeps (books : Bookkeeping m K)
    (giveUp : ∀ {w c cs}, K w (c :: cs) → K (w.close c.ticket .dropped) cs) {c : Call}
    (k : K w (c :: F)) : K (m.settle c w).2 ((m.settle c w).1.calls ++ F) := by
  unfold settle
  split
  · exact settleStopped_keeps giveUp k
  · exact settleDue_keeps books k

/-- A run keeps the books if giving up calls and the passing of time do. -/
theorem run_keeps (books : Bookkeeping m K)
    (giveUp : ∀ {w c cs}, K w (c :: cs) → K (w.close c.ticket .dropped) cs)
    (advance : ∀ {w cs t} cancelled, K w cs → (∀ c ∈ cs, t ≤ c.wake) →
      K { w with clock := t, cancelled } cs)
    {plan : Plan} {input : Val} {s : σ} {o : ω} {clock : Nat} {cancelAfter : Option Nat}
    (k : K (initial s o clock cancelAfter) []) :
    K (m.run plan input s o clock cancelAfter).2 [] := by
  refine m.run_spec (I := fun p w ↦ K w p.calls) ?_ ?_ ?_ ?_
  · intro p w h
    rw [← List.append_nil p.calls]
    exact h.keeps books k
  · intro p w p' w' k h
    rw [← List.append_nil p'.calls]
    exact h.keeps books (settleStopped_keeps giveUp) (by rwa [List.append_nil])
  · intro p w t p' w' k wake h
    rw [← List.append_nil p'.calls]
    refine h.keeps books (settle_keeps books giveUp) ?_
    rw [List.append_nil]
    exact advance w.cancelled k (Process.nextWake_spec wake).1
  · intro p w t c k wake _ due
    exact advance true k fun d hd ↦ Nat.le_trans due ((Process.nextWake_spec wake).1 d hd)

end Machine

/-! ## Replies -/

namespace Executor

/-- What an executor remembers after some calls. -/
def after (e : Executor σ) (s : σ) : List (String × Val) → σ
  | [] => s
  | (task, input) :: rest => e.after (e.respond task input s).2 rest

/-- The replies that an executor gives to some calls. -/
def replies (e : Executor σ) (s : σ) : List (String × Val) → List Reply
  | [] => []
  | (task, input) :: rest =>
    (e.respond task input s).1 :: e.replies (e.respond task input s).2 rest

variable (e : Executor σ) (s : σ)

theorem after_concat (asked : List (String × Val)) (task : String) (input : Val) :
    e.after s (asked ++ [(task, input)]) = (e.respond task input (e.after s asked)).2 := by
  induction asked generalizing s with
  | nil => rfl
  | cons k rest ih => exact ih _

theorem replies_concat (asked : List (String × Val)) (task : String) (input : Val) :
    e.replies s (asked ++ [(task, input)]) =
      e.replies s asked ++ [(e.respond task input (e.after s asked)).1] := by
  induction asked generalizing s with
  | nil => rfl
  | cons k rest ih => exact congrArg _ (ih _)

@[simp] theorem length_replies (asked : List (String × Val)) :
    (e.replies s asked).length = asked.length := by
  induction asked generalizing s with
  | nil => rfl
  | cons k rest ih => simp [replies, ih]

end Executor

namespace World

/-- The calls in the log, in the order in which they began. -/
def made (w : World σ ω) : List (String × Val) := w.calls.map fun r ↦ (r.task, r.input)

theorem SameLog.made_eq {w w' : World σ ω} (same : w.SameLog w') : w'.made = w.made := by
  rw [made, made, same.calls]

@[simp] theorem made_close (w : World σ ω) (n : Nat) (o : Outcome) :
    (w.close n o).made = w.made := by
  refine List.ext_getElem? fun i ↦ ?_
  simp only [made, close, List.getElem?_map, List.getElem?_modify]
  split <;> cases w.calls[i]? <;> rfl

@[simp] theorem made_leave (w : World σ ω) : w.leave.made = w.made := rfl

@[simp] theorem length_made (w : World σ ω) : w.made.length = w.calls.length := by
  simp [made]

/-- Closing an entry touches no other. -/
theorem getElem?_calls_close (w : World σ ω) (n i : Nat) (o : Outcome) :
    (w.close n o).calls[i]? =
      if n = i then w.calls[i]?.map fun r ↦ { r with ending := some (w.clock, o) }
      else w.calls[i]? := by
  rw [close, List.getElem?_modify]
  split <;> simp_all

end World

@[simp] theorem Process.made_drop (p : Process) (w : World σ ω) : (p.drop w).made = w.made := by
  induction p generalizing w <;> simp_all [drop]

namespace Machine

variable {m : Machine σ ω}

/-- A product calls nothing itself. -/
theorem Joins.made_eq {w w' : World σ ω} {left right q : Process}
    (h : m.Joins w left right q w') : w'.made = w.made := by
  cases h <;> simp

/-- A call that is asked for is called. -/
theorem made_asked (m : Machine σ ω) (site : Site) (input : Val) (w : World σ ω) :
    (m.asked site input w).made = w.made ++ [(site.name, input)] := by
  simp [World.made, Machine.asked]

theorem made_finish (c : Call) (w : World σ ω) : (m.finish c w).2.made = w.made := by
  have closed : ((w.cancelBy c.reply).close c.ticket c.outcome).made = w.made := by
    rw [World.made_close, World.made, World.made, World.calls_cancelBy]
  unfold finish
  dsimp only
  split
  · rw [(m.observe_sameLog _ _ _).2.made_eq, closed]
  · exact closed

theorem made_settleStopped (c : Call) (w : World σ ω) : (settleStopped c w).2.made = w.made := by
  unfold settleStopped
  split
  · exact World.made_close _ _ _
  · rfl

theorem made_settle (c : Call) (w : World σ ω) : (m.settle c w).2.made = w.made := by
  unfold settle
  split
  · exact made_settleStopped c w
  · unfold settleDue
    split
    · exact made_finish c w
    · rfl

theorem Leaves.made_eq {site : Site} {p q : Process} {w w' : World σ ω}
    (h : m.Leaves site p w q w') : w'.made = w.made := by
  cases h with
  | ok => exact (m.observe_sameLog _ _ _).2.made_eq
  | error | wait => rfl

end Machine

/-- The open entries of the log are the calls that go on, and each has the reply that the executor
gave when it was asked for that entry. -/
structure Ledger (e : Executor σ) (s : σ) (w : World σ ω) (cs : List Call) : Prop where
  executor : w.executor = e.after s w.made
  distinct : (cs.map Call.ticket).Nodup
  entry : ∀ c ∈ cs, ∃ start,
    w.calls[c.ticket]? = some ⟨c.site.name, c.input, start, none⟩ ∧
      c.wake = start + c.reply.delay ∧ (e.replies s w.made)[c.ticket]? = some c.reply
  owner : ∀ {i r}, w.calls[i]? = some r → r.ending = none → ∃ c ∈ cs, c.ticket = i

namespace Ledger

variable {e : Executor σ} {s : σ} {w w' : World σ ω} {cs : List Call}

theorem same (ledger : Ledger e s w cs) (same : w.SameLog w') : Ledger e s w' cs where
  executor := by
    rw [same.executor, same.made_eq]
    exact ledger.executor
  distinct := ledger.distinct
  entry c hc := by
    rw [same.calls, same.made_eq]
    exact ledger.entry c hc
  owner found := ledger.owner (same.calls ▸ found)

theorem perm {cs' : List Call} (ledger : Ledger e s w cs) (order : cs.Perm cs') :
    Ledger e s w cs' where
  executor := ledger.executor
  distinct := (order.map _).nodup_iff.1 ledger.distinct
  entry c hc := ledger.entry c (order.mem_iff.2 hc)
  owner found opened := by
    obtain ⟨c, hc, same⟩ := ledger.owner found opened
    exact ⟨c, order.mem_iff.1 hc, same⟩

/-- A ticket is the place of an entry. -/
theorem ticket_lt (ledger : Ledger e s w cs) {c : Call} (hc : c ∈ cs) :
    c.ticket < w.calls.length := by
  obtain ⟨start, found, -⟩ := ledger.entry c hc
  exact (List.getElem?_eq_some_iff.1 found).1

/-- A call that is asked for gets the next entry. -/
theorem ask {m : Machine σ ω} (ledger : Ledger m.executor s w cs) (site : Site) (input : Val) :
    Ledger m.executor s (m.asked site input w) (m.called site input w :: cs) := by
  have made := m.made_asked site input w
  constructor
  · rw [made, Executor.after_concat, ← ledger.executor]
    rfl
  · rw [List.map_cons, List.nodup_cons]
    refine ⟨fun mem ↦ ?_, ledger.distinct⟩
    obtain ⟨c, hc, same⟩ := List.mem_map.1 mem
    have less := ledger.ticket_lt hc
    rw [same] at less
    exact Nat.lt_irrefl _ less
  · intro c hc
    rw [made, Executor.replies_concat]
    rcases List.mem_cons.1 hc with rfl | hc
    · refine ⟨w.clock, by simp [Machine.asked, Machine.called], rfl, ?_⟩
      rw [← ledger.executor]
      simp [Machine.called]
    · obtain ⟨start, found, wake, reply⟩ := ledger.entry c hc
      have less := ledger.ticket_lt hc
      refine ⟨start, ?_, wake, ?_⟩
      · rw [Machine.asked, List.getElem?_append_left less]
        exact found
      · rw [List.getElem?_append_left (by simpa using less)]
        exact reply
  · intro i r found opened
    rw [Machine.asked, List.getElem?_append] at found
    split at found
    next less =>
      obtain ⟨c, hc, same⟩ := ledger.owner found opened
      exact ⟨c, List.mem_cons_of_mem _ hc, same⟩
    next le =>
      refine ⟨_, List.mem_cons_self, ?_⟩
      obtain ⟨zero, -⟩ := List.getElem?_eq_some_iff.1 found
      simp only [List.length_singleton] at zero
      show w.calls.length = i
      omega

/-- A call that does not go on has a closed entry. -/
theorem close {c : Call} (ledger : Ledger e s w (c :: cs)) (o : Outcome) :
    Ledger e s (w.close c.ticket o) cs := by
  have distinct := ledger.distinct
  rw [List.map_cons, List.nodup_cons] at distinct
  constructor
  · rw [World.made_close]
    exact ledger.executor
  · exact distinct.2
  · intro d hd
    have differ : c.ticket ≠ d.ticket := fun same ↦ distinct.1 (List.mem_map.2 ⟨d, hd, same.symm⟩)
    rw [World.made_close, World.getElem?_calls_close, if_neg differ]
    exact ledger.entry d (List.mem_cons_of_mem _ hd)
  · intro i r found opened
    rw [World.getElem?_calls_close] at found
    split at found
    next =>
      obtain ⟨r', -, rfl⟩ := Option.map_eq_some_iff.1 found
      cases opened
    next differ =>
      obtain ⟨d, hd, rfl⟩ := ledger.owner found opened
      rcases List.mem_cons.1 hd with rfl | hd
      · exact (differ rfl).elim
      · exact ⟨d, hd, rfl⟩

/-- Every run keeps the ledger. -/
theorem bookkeeping (m : Machine σ ω) (s : σ) : Bookkeeping m (Ledger m.executor s) where
  same := Ledger.same
  perm := Ledger.perm
  ask site input ledger := ledger.ask site input
  finish ledger _ := ledger.close _
  giveUp ledger _ := ledger.close _

/-- The ledger is open when a run begins. -/
theorem initial (m : Machine σ ω) (s : σ) (o : ω) (clock : Nat) (cancelAfter : Option Nat) :
    Ledger m.executor s (Machine.initial s o clock cancelAfter) [] where
  executor := rfl
  distinct := .nil
  entry _ hc := by simp at hc
  owner found := by simp [Machine.initial] at found

/-- The ledger is about calls, not about time. -/
theorem advance (ledger : Ledger e s w cs) (t : Nat) (cancelled : Bool) :
    Ledger e s { w with clock := t, cancelled } cs :=
  ⟨ledger.executor, ledger.distinct, ledger.entry, ledger.owner⟩

/-- The ledger is closed when a run ends. -/
theorem of_run (m : Machine σ ω) (plan : Plan) (input : Val) (s : σ) (o : ω) (clock : Nat)
    (cancelAfter : Option Nat) :
    Ledger m.executor s (m.run plan input s o clock cancelAfter).2 [] := by
  refine Machine.run_keeps (bookkeeping m s) (fun ledger ↦ ledger.close _) ?_ (initial m s o _ _)
  exact fun cancelled ledger _ ↦ ledger.advance _ cancelled

/-- In a closed ledger every call has ended. -/
theorem ending_isSome (ledger : Ledger e s w []) {r : CallRecord} (hr : r ∈ w.calls) :
    r.ending.isSome := by
  obtain ⟨i, found⟩ := List.mem_iff_getElem?.1 hr
  rw [Option.isSome_iff_ne_none]
  intro opened
  obtain ⟨c, hc, -⟩ := ledger.owner found opened
  simp at hc

end Ledger

end Taskflow
