import Taskflow.Proofs.Run.Ledger

/-!
# The log in the course of time

A run adds entries to its log and closes them, and does nothing else to it: whatever the log says of
a call that has ended it says from then on.  `World.Precedes` is how a world relates to what becomes
of it, and `Annals` are a ledger whose entries are dated: no call begins or ends after the present
instant, and those that go on are not over before it.

`World.OpenAmong` says of some entries that at most certain calls of them go on.
-/

namespace Taskflow

variable {σ ω : Type}

namespace World

/-- How a world relates to what becomes of it: entries are added to its log, later ones at later
instants, and those that are open may be closed. -/
structure Precedes (u w : World σ ω) : Prop where
  clock : u.clock ≤ w.clock
  kept : ∀ {i : Nat} {r : CallRecord}, u.calls[i]? = some r →
    ∃ ending, w.calls[i]? = some { r with ending } ∧ (r.ending ≠ none → ending = r.ending)
  later : ∀ {i : Nat} {r : CallRecord},
    w.calls[i]? = some r → u.calls.length ≤ i → u.clock ≤ r.start

/-- Whether each of some entries is open only if it is that of one of the calls `cs`. -/
def OpenAmong (w : World σ ω) (entries : List Nat) (cs : List Call) : Prop :=
  ∀ i ∈ entries, ∃ r, w.calls[i]? = some r ∧ (r.ending = none → ∃ c ∈ cs, c.ticket = i)

namespace Precedes

variable {u w w' : World σ ω} {i : Nat} {r : CallRecord}

theorem of_sameLog (same : w.SameLog w') : w.Precedes w' where
  clock := Nat.le_of_eq same.clock.symm
  kept found := ⟨_, same.calls ▸ found, fun _ ↦ rfl⟩
  later found le := by
    rw [same.calls] at found
    exact (Nat.not_lt.2 le (List.getElem?_eq_some_iff.1 found).1).elim

/-- What has ended is not touched again. -/
theorem closed (h : u.Precedes w) (found : u.calls[i]? = some r) (closed : r.ending ≠ none) :
    w.calls[i]? = some r := by
  obtain ⟨ending, kept, same⟩ := h.kept found
  rw [kept, same closed]

/-- The log gets no shorter. -/
theorem length_le (h : u.Precedes w) : u.calls.length ≤ w.calls.length := by
  refine Nat.le_of_not_lt fun less ↦ ?_
  have found := List.getElem?_eq_getElem less
  obtain ⟨ending, kept, -⟩ := h.kept found
  exact Nat.lt_irrefl _ (List.getElem?_eq_some_iff.1 kept).1

theorem trans (h : u.Precedes w) (h' : w.Precedes w') : u.Precedes w' where
  clock := Nat.le_trans h.clock h'.clock
  kept found := by
    obtain ⟨ending, kept, same⟩ := h.kept found
    obtain ⟨ending', kept', same'⟩ := h'.kept kept
    refine ⟨ending', kept', fun closed ↦ ?_⟩
    rw [← same closed]
    exact same' (by rwa [same closed])
  later {i r} found le := by
    by_cases old : i < w.calls.length
    · obtain ⟨ending, kept, -⟩ := h'.kept (List.getElem?_eq_getElem old)
      have start : r.start = w.calls[i].start := by
        obtain rfl := Option.some.inj (found.symm.trans kept)
        rfl
      rw [start]
      exact h.later (List.getElem?_eq_getElem old) le
    · exact Nat.le_trans h.clock (h'.later found (Nat.not_lt.1 old))

theorem refl (w : World σ ω) : w.Precedes w := of_sameLog ⟨rfl, rfl, rfl⟩

/-- A call that is asked for gets an entry of its own. -/
theorem asked (m : Machine σ ω) (site : Site) (input : Val) (w : World σ ω) :
    w.Precedes (m.asked site input w) where
  clock := Nat.le_refl _
  kept {i r} found := by
    refine ⟨_, ?_, fun _ ↦ rfl⟩
    rw [Machine.asked, List.getElem?_append_left (List.getElem?_eq_some_iff.1 found).1]
    exact found
  later {i r} found le := by
    rw [Machine.asked, List.getElem?_append_right le] at found
    obtain rfl := List.mem_singleton.1 (List.mem_of_getElem? found)
    exact Nat.le_refl _

/-- Only the entry of a call that goes on is closed. -/
theorem close {e : Executor σ} {s : σ} {c : Call} {cs : List Call}
    (ledger : Ledger e s w (c :: cs)) (o : Outcome) : w.Precedes (w.close c.ticket o) where
  clock := Nat.le_refl _
  kept {i r} found := by
    rw [getElem?_calls_close]
    split
    next same =>
      obtain ⟨start, opened, -⟩ := ledger.entry c List.mem_cons_self
      rw [same, found] at opened
      obtain rfl := Option.some.inj opened
      rw [found]
      exact ⟨_, rfl, fun closed ↦ (closed rfl).elim⟩
    next => exact ⟨_, found, fun _ ↦ rfl⟩
  later {i r} found le := by
    have less := (List.getElem?_eq_some_iff.1 found).1
    rw [World.close, List.length_modify] at less
    exact (Nat.not_lt.2 le less).elim

end Precedes

namespace OpenAmong

variable {u w w' : World σ ω} {entries entries' : List Nat} {c : Call} {cs cs' : List Call}

theorem precedes (h : u.OpenAmong entries cs) (precedes : u.Precedes w) :
    w.OpenAmong entries cs := by
  intro i hi
  obtain ⟨r, found, among⟩ := h i hi
  obtain ⟨ending, kept, same⟩ := precedes.kept found
  refine ⟨_, kept, fun opened ↦ among (Decidable.byContradiction fun closed ↦ ?_)⟩
  exact closed ((same closed).symm.trans opened)

theorem append (h : w.OpenAmong entries cs) (h' : w.OpenAmong entries' cs') :
    w.OpenAmong (entries ++ entries') (cs ++ cs') := by
  intro i hi
  rcases List.mem_append.1 hi with hi | hi
  · obtain ⟨r, found, among⟩ := h i hi
    refine ⟨r, found, fun opened ↦ ?_⟩
    obtain ⟨c, hc, same⟩ := among opened
    exact ⟨c, List.mem_append_left _ hc, same⟩
  · obtain ⟨r, found, among⟩ := h' i hi
    refine ⟨r, found, fun opened ↦ ?_⟩
    obtain ⟨c, hc, same⟩ := among opened
    exact ⟨c, List.mem_append_right _ hc, same⟩

theorem close (h : w.OpenAmong entries (c :: cs)) (o : Outcome) :
    (w.close c.ticket o).OpenAmong entries cs := by
  intro i hi
  obtain ⟨r, found, among⟩ := h i hi
  rw [getElem?_calls_close]
  split
  next =>
    rw [found]
    exact ⟨_, rfl, nofun⟩
  next differ =>
    refine ⟨r, found, fun opened ↦ ?_⟩
    obtain ⟨d, hd, same⟩ := among opened
    rcases List.mem_cons.1 hd with rfl | hd
    · exact (differ same).elim
    · exact ⟨d, hd, same⟩

/-- No entry opens again, whatever a run does to its log. -/
theorem bookkeeping (m : Machine σ ω) (entries : List Nat) :
    Bookkeeping m fun w cs ↦ w.OpenAmong entries cs where
  same h same := h.precedes (.of_sameLog same)
  perm h order i hi := by
    obtain ⟨r, found, among⟩ := h i hi
    refine ⟨r, found, fun opened ↦ ?_⟩
    obtain ⟨c, hc, same⟩ := among opened
    exact ⟨c, order.mem_iff.1 hc, same⟩
  ask site input h i hi := by
    obtain ⟨r, found, among⟩ := h.precedes (.asked m site input _) i hi
    refine ⟨r, found, fun opened ↦ ?_⟩
    obtain ⟨c, hc, same⟩ := among opened
    exact ⟨c, List.mem_cons_of_mem _ hc, same⟩
  finish h _ := h.close _
  giveUp h _ := h.close _

/-- Nothing goes on in a process that is given up. -/
theorem drop {p : Process} (h : w.OpenAmong entries p.calls) : (p.drop w).OpenAmong entries [] := by
  refine Machine.drop_keeps (K := fun w cs ↦ w.OpenAmong entries cs) (fun h ↦ h.close _) ?_
  rwa [List.append_nil]

end OpenAmong

end World

/-- A ledger with dates. -/
structure Annals (e : Executor σ) (s : σ) (w : World σ ω) (cs : List Call) : Prop where
  ledger : Ledger e s w cs
  past : ∀ r ∈ w.calls,
    r.start ≤ w.clock ∧ ∀ t o, r.ending = some (t, o) → r.start ≤ t ∧ t ≤ w.clock
  waits : ∀ c ∈ cs, w.clock ≤ c.wake

namespace Annals

variable {e : Executor σ} {s : σ} {u w w' : World σ ω} {c : Call} {cs cs' : List Call}

theorem same (annals : Annals e s w cs) (same : w.SameLog w') : Annals e s w' cs where
  ledger := annals.ledger.same same
  past := by
    rw [same.calls, same.clock]
    exact annals.past
  waits := by
    rw [same.clock]
    exact annals.waits

theorem close (annals : Annals e s w (c :: cs)) (o : Outcome) :
    Annals e s (w.close c.ticket o) cs where
  ledger := annals.ledger.close o
  past r hr := by
    obtain ⟨i, found⟩ := List.mem_iff_getElem?.1 hr
    rw [World.getElem?_calls_close] at found
    split at found
    next =>
      obtain ⟨r', found', rfl⟩ := Option.map_eq_some_iff.1 found
      have began := (annals.past r' (List.mem_of_getElem? found')).1
      refine ⟨began, fun t o ending ↦ ?_⟩
      cases ending
      exact ⟨began, Nat.le_refl _⟩
    next => exact annals.past r (List.mem_of_getElem? found)
  waits d hd := annals.waits d (List.mem_cons_of_mem _ hd)

theorem ask {m : Machine σ ω} (annals : Annals m.executor s w cs) (site : Site) (input : Val) :
    Annals m.executor s (m.asked site input w) (m.called site input w :: cs) where
  ledger := annals.ledger.ask site input
  past r hr := by
    rcases List.mem_append.1 hr with hr | hr
    · exact annals.past r hr
    · obtain rfl := List.mem_singleton.1 hr
      exact ⟨Nat.le_refl _, nofun⟩
  waits c hc := by
    rcases List.mem_cons.1 hc with rfl | hc
    · exact Nat.le_add_right _ _
    · exact annals.waits c hc

theorem perm (annals : Annals e s w cs) (order : cs.Perm cs') : Annals e s w cs' where
  ledger := annals.ledger.perm order
  past := annals.past
  waits c hc := annals.waits c (order.mem_iff.2 hc)

/-- Every run keeps its annals, and looks back to whatever was at an earlier moment. -/
theorem bookkeeping (m : Machine σ ω) (s : σ) (u : World σ ω) :
    Bookkeeping m fun w cs ↦ Annals m.executor s w cs ∧ u.Precedes w where
  same k same := ⟨k.1.same same, k.2.trans (.of_sameLog same)⟩
  perm k order := ⟨k.1.perm order, k.2⟩
  ask site input k := ⟨k.1.ask site input, k.2.trans (.asked m site input _)⟩
  finish k _ := ⟨k.1.close _, k.2.trans (.close k.1.ledger _)⟩
  giveUp k _ := ⟨k.1.close _, k.2.trans (.close k.1.ledger _)⟩

/-- So it is when calls are given up. -/
theorem drop {p : Process} {F : List Call} (annals : Annals e s w (p.calls ++ F)) :
    w.Precedes (p.drop w) := by
  refine (Machine.drop_keeps (K := fun w' cs ↦ Annals e s w' cs ∧ w.Precedes w') ?_
    ⟨annals, .refl w⟩).2
  exact fun k ↦ ⟨k.1.close _, k.2.trans (.close k.1.ledger _)⟩

theorem initial (m : Machine σ ω) (s : σ) (o : ω) (clock : Nat) (cancelAfter : Option Nat) :
    Annals m.executor s (Machine.initial s o clock cancelAfter) [] where
  ledger := .initial m s o clock cancelAfter
  past _ hr := by simp [Machine.initial] at hr
  waits _ hc := by simp at hc

/-- Time goes on until the next call is over at the latest. -/
theorem advance (annals : Annals e s w cs) {t : Nat} (cancelled : Bool) (later : w.clock ≤ t)
    (waits : ∀ c ∈ cs, t ≤ c.wake) :
    Annals e s { w with clock := t, cancelled } cs ∧
      w.Precedes { w with clock := t, cancelled } := by
  refine ⟨⟨annals.ledger.advance t cancelled, fun r hr ↦ ?_, waits⟩, ⟨later, ?_, ?_⟩⟩
  · obtain ⟨began, ended⟩ := annals.past r hr
    refine ⟨Nat.le_trans began later, fun t' o ending ↦ ?_⟩
    exact ⟨(ended t' o ending).1, Nat.le_trans (ended t' o ending).2 later⟩
  · exact fun found ↦ ⟨_, found, fun _ ↦ rfl⟩
  · exact fun found le ↦ (Nat.not_lt.2 le (List.getElem?_eq_some_iff.1 found).1).elim

end Annals

namespace Machine

variable {m : Machine σ ω} {s : σ} {w w' : World σ ω} {F : List Call}

/-- What may become of a call at an instant. -/
inductive Settles (m : Machine σ ω) (c : Call) (w : World σ ω) : Process → World σ ω → Prop
  | wait : Settles m c w (.call c) w
  | finish : c.wake ≤ w.clock → Settles m c w (m.finish c w).1 (m.finish c w).2
  | giveUp : w.stopped = true →
    Settles m c w (.done (.error .cancelled)) (w.close c.ticket .dropped)

/-- Whether no more becomes of a call than that. -/
def Settling (m : Machine σ ω) (settle : Call → World σ ω → Process × World σ ω) : Prop :=
  ∀ c w, m.Settles c w (settle c w).1 (settle c w).2

theorem settling_settleStopped (m : Machine σ ω) : m.Settling settleStopped := by
  intro c w
  unfold settleStopped
  split
  next stopped => exact .giveUp stopped
  next => exact .wait

theorem settling_settle (m : Machine σ ω) : m.Settling m.settle := by
  intro c w
  unfold settle
  split
  · exact m.settling_settleStopped c w
  · unfold settleDue
    split
    next due => exact .finish due
    next => exact .wait

/-- No time passes while calls are settled. -/
theorem Settling.clock_eq {settle : Call → World σ ω → Process × World σ ω}
    (settling : m.Settling settle) (c : Call) (w : World σ ω) : (settle c w).2.clock = w.clock := by
  have settles := settling c w
  generalize settle c w = r at settles
  obtain ⟨p, w'⟩ := r
  cases settles with
  | wait => rfl
  | finish => exact clock_finish m c w
  | giveUp => rfl

theorem Settles.keeps {K : World σ ω → List Call → Prop} (books : Bookkeeping m K)
    (giveUp : ∀ {w c cs}, K w (c :: cs) → K (w.close c.ticket .dropped) cs) {c : Call} {p : Process}
    (h : m.Settles c w p w') (k : K w (c :: F)) : K w' (p.calls ++ F) := by
  cases h with
  | wait => exact k
  | finish due => exact finish_keeps books k due
  | giveUp => exact giveUp k

theorem Leaves.sameLog {site : Site} {p q : Process} (h : m.Leaves site p w q w') :
    w.SameLog w' := by
  cases h with
  | ok => exact (m.observe_sameLog _ _ _).2
  | error | wait => exact ⟨rfl, rfl, rfl⟩

theorem Leaves.precedes {site : Site} {p q : Process} (h : m.Leaves site p w q w') :
    w.Precedes w' :=
  .of_sameLog h.sameLog

theorem Joins.precedes {p q r : Process} (h : m.Joins w p q r w')
    (annals : Annals m.executor s w (p.calls ++ (q.calls ++ F))) : w.Precedes w' :=
  (h.keeps (Annals.bookkeeping m s w) ⟨annals, .refl w⟩).2

theorem Starts.annals {plan : Plan} {v : Val} {p : Process} (h : m.Starts plan v w p w')
    (annals : Annals m.executor s w F) :
    Annals m.executor s w' (p.calls ++ F) ∧ w.Precedes w' :=
  h.keeps (Annals.bookkeeping m s w) ⟨annals, .refl w⟩

theorem Resumes.annals {settle : Call → World σ ω → Process × World σ ω}
    (settling : m.Settling settle) {p p' : Process} (h : m.Resumes settle p w p' w')
    (annals : Annals m.executor s w (p.calls ++ F)) :
    Annals m.executor s w' (p'.calls ++ F) ∧ w.Precedes w' := by
  have books := Annals.bookkeeping m s w
  refine h.keeps books (fun {c w F} k ↦ (settling c w).keeps books (fun k ↦ ?_) k)
    ⟨annals, .refl w⟩
  exact ⟨k.1.close _, k.2.trans (.close k.1.ledger _)⟩

end Machine

end Taskflow
