import Taskflow.Proofs.Grammar.Programs
import Taskflow.Proofs.Run.Counting
import Taskflow.Proofs.Run.History
import Taskflow.Proofs.Run.Resolution

/-!
# What every evaluation does

`History.Sound` says of each evaluation in a history when it calls tasks and what it hands on.
Unless it begins in a cancelled scope it makes a call at once.  A functor name, the first stage of a
composition and the left branch of a product go on from where they begin.  The second stage begins
with the value of the first one when no call of the first one goes on any more, and the right branch
begins at the instant of the product unless the left one has ended it.

This is true of what is written down when a plan is started (`Starts.sound`) and stays true when a
process is resumed (`sound_updated`), so it is true of the history of a run (`Recounts.of_run`).
-/

namespace Taskflow

variable {σ ω : Type}

/-- Whether some calls have ended by the present instant. -/
def World.Over (w : World σ ω) (entries : List Nat) : Prop :=
  ∀ i ∈ entries, ∃ r t o, w.calls[i]? = some r ∧ r.ending = some (t, o) ∧ t ≤ w.clock

/-- What the log says of an evaluation and of the calls that were made for it. -/
structure Visit.Logged (visit : Visit σ ω) (w : World σ ω) (tickets : List Nat) : Prop where
  precedes : visit.world.Precedes w
  later : ∀ i ∈ tickets, visit.world.calls.length ≤ i
  atOnce : visit.world.stopped = false → visit.world.calls.length ∈ tickets ∧
    ∃ r, w.calls[visit.world.calls.length]? = some r ∧ r.start = visit.world.clock
  stopped : visit.world.stopped = true → tickets = [] ∧ visit.result = some (.error .cancelled)

/-- How the second stage of a composition comes after the first one. -/
structure History.Follows (outer inner : History σ ω) : Prop where
  reached : ∀ x, inner.result? = some (.ok x) → ∃ u, outer.Begins x u
  begins : ∀ x u, outer.Begins x u → inner.result? = some (.ok x) ∧ u.Over inner.tickets

/-- How the right branch of a product comes after the left one.  It may not come at all. -/
structure Machine.Launches (m : Machine σ ω) (w : World σ ω) (visit : Visit σ ω)
    (left right : History σ ω) : Prop where
  begins : ∀ x u, right.Begins x u → x = visit.input ∧ u.clock = visit.world.clock
  alone : right.visit? = none → m.policy = .failFast ∧
    (∃ e, left.result? = some (.error e) ∧ visit.result = some (.error e)) ∧
    ∃ u : World σ ω, u.clock = visit.world.clock ∧ u.Precedes w ∧ u.Over left.tickets

namespace History

/-- How the parts of an evaluation follow each other. -/
def Shaped (m : Machine σ ω) (w : World σ ω) : History σ ω → Prop
  | .unreached _ => True
  | .task visit site ticket => ∀ i ∈ ticket, ∃ ending,
      w.calls[i]? = some ⟨site.name, visit.input, visit.world.clock, ending⟩
  | .named visit _ body => body.Begins visit.input visit.world
  | .seq visit outer inner => inner.Begins visit.input visit.world ∧ outer.Follows inner
  | .par visit left right =>
    left.Begins visit.input (visit.world.enter false) ∧ m.Launches w visit left right

/-- What holds of an evaluation when a run has got to the world `w`. -/
structure Sound (m : Machine σ ω) (w : World σ ω) (h : History σ ω) : Prop where
  logged : ∀ visit, h.visit? = some visit → visit.Logged w h.tickets
  shaped : h.Shaped m w

/-- An evaluation begins once. -/
theorem Begins.unique {h : History σ ω} {v v' : Val} {u u' : World σ ω} (begins : h.Begins v u)
    (begins' : h.Begins v' u') : v' = v ∧ u' = u := by
  obtain ⟨r, visited⟩ := begins
  obtain ⟨r', visited'⟩ := begins'
  cases visited.symm.trans visited'
  exact ⟨rfl, rfl⟩

end History

/-! ## Later on -/

section Later

variable {m : Machine σ ω} {u w : World σ ω}

theorem Visit.Logged.precedes' {visit : Visit σ ω} {tickets : List Nat}
    (logged : visit.Logged u tickets) (precedes : u.Precedes w) : visit.Logged w tickets where
  precedes := logged.precedes.trans precedes
  later := logged.later
  atOnce live := by
    obtain ⟨mem, r, found, start⟩ := logged.atOnce live
    obtain ⟨ending, kept, -⟩ := precedes.kept found
    exact ⟨mem, _, kept, start⟩
  stopped := logged.stopped

theorem Machine.Launches.precedes {visit : Visit σ ω} {left right : History σ ω}
    (launches : m.Launches u visit left right) (precedes : u.Precedes w) :
    m.Launches w visit left right where
  begins := launches.begins
  alone absent := by
    obtain ⟨policy, failed, u', clock, precedes', ends⟩ := launches.alone absent
    exact ⟨policy, failed, u', clock, precedes'.trans precedes, ends⟩

theorem History.Sound.precedes {h : History σ ω} (sound : h.Sound m u) (precedes : u.Precedes w) :
    h.Sound m w where
  logged visit visited := (sound.logged visit visited).precedes' precedes
  shaped := by
    cases h with
    | unreached => trivial
    | task =>
      intro i hi
      obtain ⟨ending, found⟩ := sound.shaped i hi
      obtain ⟨ending', kept, -⟩ := precedes.kept found
      exact ⟨ending', kept⟩
    | named => exact sound.shaped
    | seq => exact sound.shaped
    | par => exact ⟨sound.shaped.1, sound.shaped.2.precedes precedes⟩

theorem History.all_sound_unreached {plan : Plan} :
    (History.unreached plan).All (History.Sound m w) :=
  all_unreached.2 ⟨nofun, trivial⟩

/-- Calls of which none is open have ended. -/
theorem Annals.over {e : Executor σ} {s : σ} {cs : List Call} (annals : Annals e s w cs)
    {entries : List Nat} (closed : w.OpenAmong entries []) : w.Over entries := by
  intro i hi
  obtain ⟨r, found, among⟩ := closed i hi
  cases ending : r.ending with
  | none =>
    obtain ⟨c, hc, -⟩ := among ending
    cases hc
  | some end' =>
    obtain ⟨t, o⟩ := end'
    have past := (annals.past r (List.mem_of_getElem? found)).2 t o ending
    exact ⟨r, t, o, found, ending, past.2⟩

end Later

namespace Machine

variable {m : Machine σ ω} {s : σ} {w w' : World σ ω} {plan : Plan} {v : Val} {p p' q : Process}
  {F : List Call}

/-! ## A plan that is started -/

theorem begins_recorded (plan : Plan) (v : Val) (w : World σ ω) :
    (m.recorded plan v w).Begins v w :=
  ⟨_, visit?_recorded plan v w⟩

/-- Unless it is cancelled a plan that is started makes a call. -/
theorem mem_tickets_recorded (plan : Plan) (v : Val) (live : w.stopped = false) :
    w.calls.length ∈ (m.recorded plan v w).tickets := by
  induction plan generalizing v w with
  | task => simp [recorded, History.tickets, live]
  | named site body ih => exact ih v live
  | seq outer inner ihOuter ihInner =>
    rw [recorded]
    split <;> exact List.mem_append_left _ (ihInner v live)
  | par left right ihLeft ihRight =>
    have first := ihLeft v ((World.stopped_enter w).trans live)
    simp only [recorded]
    split <;> exact List.mem_append_left _ first

theorem Starts.logged (h : m.Starts plan v w p w') (annals : Annals m.executor s w F) :
    ∀ visit, (m.recorded plan v w).visit? = some visit →
      visit.Logged w' (m.recorded plan v w).tickets := by
  intro visit visited
  rw [visit?_recorded, h.eq] at visited
  obtain rfl := Option.some.inj visited
  obtain ⟨annals', precedes⟩ := h.annals annals
  constructor
  · exact precedes
  · intro i hi
    exact (h.addsTickets.le_of_mem hi).resolve_left nofun
  · intro live
    have mem := mem_tickets_recorded (m := m) plan v live
    obtain ⟨r, found, -⟩ := (h.tracks annals).openAmong _ mem
    refine ⟨mem, r, found, Nat.le_antisymm ?_ (precedes.later found (Nat.le_refl _))⟩
    exact Nat.le_trans (annals'.past r (List.mem_of_getElem? found)).1 (Nat.le_of_eq h.clock_eq)
  · intro stopped
    obtain ⟨rfl, rfl⟩ := h.of_stopped stopped
    refine ⟨?_, rfl⟩
    obtain ⟨k, length, perm⟩ := h.addsTickets
    obtain rfl : k = 0 := by omega
    exact List.perm_nil.1 perm

/-- A task that is called is entered into the log as it is called. -/
theorem Calls.shaped {site : Site} (h : m.Calls site v w p w')
    (annals : Annals m.executor s w F) (result : Option (Except RunError Val)) :
    (History.task ⟨v, w, result⟩ site
      (if w.stopped then none else some w.calls.length)).Shaped m w' := by
  have entry : (m.asked site v w).calls[w.calls.length]? = some ⟨site.name, v, w.clock, none⟩ :=
    List.getElem?_concat_length
  cases h with
  | stopped stopped =>
    rw [if_pos stopped]
    exact nofun
  | now live due =>
    rw [if_neg (by simp [live])]
    rintro i ⟨⟩
    have kept := finish_keeps (Annals.bookkeeping m s (m.asked site v w))
      ⟨annals.ask site v, .refl _⟩ due
    obtain ⟨ending, found, -⟩ := kept.2.kept entry
    exact ⟨ending, found⟩
  | wait live =>
    rw [if_neg (by simp [live])]
    rintro i ⟨⟩
    exact ⟨none, entry⟩

/-- The second stage begins where the first one has come to a value. -/
theorem follows_recorded {outer : Plan} {x : Val} {inner : History σ ω}
    (tracks : inner.Tracks w (.done (.ok x))) (annals : Annals m.executor s w F) :
    (m.recorded outer x w).Follows inner where
  reached y result := by
    cases tracks.result?_eq.symm.trans result
    exact ⟨w, begins_recorded outer x w⟩
  begins y u begins := by
    obtain ⟨rfl, rfl⟩ := (begins_recorded outer x w).unique begins
    exact ⟨tracks.result?_eq, annals.over tracks.openAmong⟩

/-- The second stage does not begin without a value. -/
theorem follows_unreached {outer : Plan} {inner : History σ ω} (tracks : inner.Tracks w p)
    (notOk : ∀ x, p ≠ .done (.ok x)) : (History.unreached outer).Follows inner where
  reached x result := by
    rw [tracks.result?_eq] at result
    cases p with
    | done r =>
      cases result
      exact (notOk x rfl).elim
    | _ => cases result
  begins x u begins := by
    obtain ⟨r, visited⟩ := begins
    cases visited

theorem ne_done_of_pending (pending : p.isDone = false) (r : Except RunError Val) :
    p ≠ .done r := by
  rintro rfl
  cases pending

/-- A product whose left branch has ended it at once leaves it at that. -/
theorem launches_unreached (visit : Visit σ ω) {left : History σ ω} {right : Plan}
    (tracks : left.Tracks w p) (ends : m.ends p = true) (annals : Annals m.executor s w F)
    (instant : w.clock = visit.world.clock) :
    m.Launches w.leave (visit.upTo p) left (.unreached right) where
  begins x u begins := by
    obtain ⟨r, visited⟩ := begins
    cases visited
  alone _ := by
    obtain ⟨e, rfl, policy⟩ := m.ends_iff.1 ends
    exact ⟨policy, ⟨e, tracks.result?_eq, rfl⟩, w, instant, .of_sameLog (.leave _),
      annals.over tracks.openAmong⟩

theorem launches_recorded {left : History σ ω} {right : Plan} {visit : Visit σ ω}
    (instant : w.clock = visit.world.clock) (input : v = visit.input) :
    m.Launches w' visit left (m.recorded right v w) where
  begins x u begins := by
    obtain ⟨rfl, rfl⟩ := (begins_recorded right v w).unique begins
    exact ⟨input, instant⟩
  alone absent := by
    rw [visit?_recorded] at absent
    cases absent

/-- Every evaluation that begins when a plan is started does what it should. -/
theorem Starts.sound (h : m.Starts plan v w p w') (annals : Annals m.executor s w F) :
    (m.recorded plan v w).All (History.Sound m w') := by
  -- Of an evaluation as a whole the log is known already, so each case is about its parts.
  have logged := h.logged annals
  have start := h.eq
  induction h generalizing F with
  | task => exact History.all_task.2 ⟨logged, (m.calls _ _ _).shaped annals _⟩
  | named body leaves ih =>
    have sound := ih annals (body.logged annals) body.eq
    rw [recorded] at logged ⊢
    refine History.all_named.2 ⟨⟨logged, begins_recorded _ _ _⟩, sound.imp fun g sound ↦ ?_⟩
    exact sound.precedes leaves.precedes
  | seqOk inner outer ihInner ihOuter =>
    obtain ⟨annals', -⟩ := inner.annals annals
    obtain ⟨-, precedes⟩ := outer.annals annals'
    have soundInner := ihInner annals (inner.logged annals) inner.eq
    have soundOuter := ihOuter annals' (outer.logged annals') outer.eq
    simp only [recorded, inner.eq] at logged ⊢
    refine History.all_seq.2 ⟨⟨logged, begins_recorded _ _ _, ?_⟩,
      soundInner.imp fun g sound ↦ sound.precedes precedes, soundOuter⟩
    exact follows_recorded (inner.tracks annals) annals'
  | seqError inner ih =>
    have sound := ih annals (inner.logged annals) inner.eq
    simp only [recorded, inner.eq] at logged ⊢
    refine History.all_seq.2 ⟨⟨logged, begins_recorded _ _ _, ?_⟩, sound,
      History.all_sound_unreached⟩
    exact follows_unreached (inner.tracks annals) fun x ↦ by simp
  | seqWait first pending ih =>
    have sound := ih annals (first.logged annals) first.eq
    have tracks := first.tracks annals
    have notOk (x : Val) := ne_done_of_pending pending (.ok x)
    rw [first.recorded_wait pending] at logged ⊢
    exact History.all_seq.2 ⟨⟨logged, begins_recorded _ _ _, follows_unreached tracks notOk⟩,
      sound, History.all_sound_unreached⟩
  | @parEnds _ _ v w _ _ left ends ih =>
    have entered := annals.same (.enter _ false)
    have sound := ih entered (left.logged entered) left.eq
    simp only [recorded, left.eq, ends, if_true, start] at logged ⊢
    refine History.all_par.2 ⟨⟨logged, begins_recorded _ _ _, ?_⟩,
      sound.imp fun g sound ↦ sound.precedes (.of_sameLog (.leave _)), History.all_sound_unreached⟩
    exact launches_unreached ⟨v, w, none⟩ (left.tracks entered) ends (left.annals entered).1
      left.clock_eq
  | par left notLeft right joins ihLeft ihRight =>
    have entered := annals.same (.enter _ false)
    obtain ⟨annals', -⟩ := left.annals entered
    obtain ⟨annals'', precedes⟩ := right.annals annals'
    have precedes' := joins.precedes (annals''.perm (List.perm_append_comm_assoc _ _ _))
    have soundLeft := ihLeft entered (left.logged entered) left.eq
    have soundRight := ihRight annals' (right.logged annals') right.eq
    simp only [recorded, left.eq, notLeft, Bool.false_eq_true, if_false] at logged ⊢
    refine History.all_par.2 ⟨⟨logged, begins_recorded _ _ _, launches_recorded ?_ rfl⟩,
      soundLeft.imp fun g sound ↦ sound.precedes (precedes.trans precedes'),
      soundRight.imp fun g sound ↦ sound.precedes precedes'⟩
    exact left.clock_eq

/-! ## A process that is resumed -/

variable {settle : Call → World σ ω → Process × World σ ω} {u : World σ ω} {h : History σ ω}

/-- What has begun goes on as the same evaluation. -/
theorem visit?_updated (tracks : h.Tracks u p) (resumes : m.Resumes settle p w p' w') :
    (m.updated settle h p w).visit? = h.visit?.map (Visit.upTo · p') := by
  have resume := resumes.eq
  cases tracks with
  | @done h r result =>
    cases resumes
    rw [updated_done]
    obtain ⟨⟨v, u, _⟩, visited, rfl⟩ := Option.bind_eq_some_iff.1 result
    rw [visited]
    rfl
  | call =>
    cases resumes
    rfl
  | named =>
    simp only [updated, resume]
    rfl
  | first =>
    simp only [updated, resume]
    split <;> rfl
  | second _ tracks pending =>
    rw [updated_second tracks pending, resume]
    rfl
  | par =>
    simp only [updated, resume]
    split <;> rfl

theorem begins_updated (tracks : h.Tracks u p) (resumes : m.Resumes settle p w p' w') (v : Val)
    (u' : World σ ω) : (m.updated settle h p w).Begins v u' ↔ h.Begins v u' := by
  rw [History.Begins, History.Begins, visit?_updated tracks resumes]
  constructor
  · rintro ⟨r, visited⟩
    obtain ⟨⟨v, u, r'⟩, visited', same⟩ := Option.map_eq_some_iff.1 visited
    cases same
    exact ⟨r', visited'⟩
  · rintro ⟨r, visited⟩
    rw [visited]
    exact ⟨_, rfl⟩

/-- No evaluation goes on that has begun in a cancelled scope. -/
theorem goesOn_of_tracks (tracks : h.Tracks u p) (pending : p.isDone = false) {visit : Visit σ ω}
    (visited : h.visit? = some visit) : visit.GoesOn := by
  cases tracks with
  | done => cases pending
  | call goesOn | named goesOn | first goesOn | second goesOn | par goesOn =>
    cases visited
    exact goesOn

theorem logged_updated (settling : m.Settling settle) (tracks : h.Tracks u p)
    (precedes : u.Precedes w) (resumes : m.Resumes settle p w p' w') (later : w.Precedes w')
    (logged : ∀ visit, h.visit? = some visit → visit.Logged u h.tickets) :
    ∀ visit, (m.updated settle h p w).visit? = some visit →
      visit.Logged w' (m.updated settle h p w).tickets := by
  intro visit' visited'
  have adds := addsTickets_updated settling tracks resumes
  rw [visit?_updated tracks resumes] at visited'
  obtain ⟨visit, visited, rfl⟩ := Option.map_eq_some_iff.1 visited'
  have before := (logged visit visited).precedes' (precedes.trans later)
  constructor
  · exact before.precedes
  · intro i hi
    rcases adds.le_of_mem hi with hi | le
    · exact before.later i hi
    · exact Nat.le_trans ((logged visit visited).precedes.trans precedes).length_le le
  · intro live
    obtain ⟨mem, entry⟩ := before.atOnce live
    exact ⟨adds.mem mem, entry⟩
  · intro stopped
    cases pending : p.isDone with
    | false => cases stopped.symm.trans (goesOn_of_tracks tracks pending visited).live
    | true =>
      rw [Process.eq_done_of_isDone pending] at tracks resumes ⊢
      obtain ⟨none, result⟩ := before.stopped stopped
      cases resumes
      refine ⟨by rwa [updated_done], ?_⟩
      have ended := tracks.result?_eq
      rw [History.result?, visited] at ended
      exact ended.symm.trans result

/-- What has begun as a second stage goes on as one. -/
theorem follows_updated {outer inner : History σ ω} (tracks : outer.Tracks u p)
    (resumes : m.Resumes settle p w p' w') (follows : outer.Follows inner) :
    (m.updated settle outer p w).Follows inner where
  reached x result := by
    obtain ⟨u', begins⟩ := follows.reached x result
    exact ⟨u', (begins_updated tracks resumes x u').2 begins⟩
  begins x u' begins := follows.begins x u' ((begins_updated tracks resumes x u').1 begins)

/-- A product that waits has launched both branches. -/
theorem launches_updated {visit : Visit σ ω} {left left' right right' : History σ ω}
    (tracks : right.Tracks u q) (begins : ∀ x u', right'.Begins x u' ↔ right.Begins x u')
    (launches : m.Launches u visit left right) :
    m.Launches w (visit.upTo p) left' right' where
  begins x u' begins' := launches.begins x u' ((begins x u').1 begins')
  alone absent := by
    obtain ⟨visit, visited⟩ := tracks.visited
    obtain ⟨r, visited'⟩ := (begins visit.input visit.world).2 ⟨visit.result, visited⟩
    cases absent.symm.trans visited'

/-- Every evaluation in a history does what it should while its process is resumed. -/
theorem sound_updated (settling : m.Settling settle) (tracks : h.Tracks u p)
    (precedes : u.Precedes w) (resumes : m.Resumes settle p w p' w')
    (annals : Annals m.executor s w (p.calls ++ F)) (sound : h.All (History.Sound m u)) :
    (m.updated settle h p w).All (History.Sound m w') := by
  have logged {h : History σ ω} {p p' : Process} {w w' : World σ ω} {F : List Call}
      (tracks : h.Tracks u p) (precedes : u.Precedes w) (resumes : m.Resumes settle p w p' w')
      (annals : Annals m.executor s w (p.calls ++ F)) (sound : h.All (History.Sound m u)) :=
    logged_updated settling tracks precedes resumes (resumes.annals settling annals).2
      sound.self.logged
  -- A part that is not resumed itself keeps what holds of it, as the world it was left in precedes.
  induction tracks generalizing w p' w' F with
  | done =>
    cases resumes
    rw [updated_done]
    exact sound.imp fun g sound ↦ sound.precedes precedes
  | call goesOn entry =>
    have logged := logged (.call goesOn entry) precedes resumes annals sound
    have later := precedes.trans (resumes.annals settling annals).2
    exact History.all_task.2 ⟨logged, ((History.all_task.1 sound).precedes later).shaped⟩
  | named goesOn tracks ih =>
    have logged := logged (.named goesOn tracks) precedes resumes annals sound
    obtain ⟨node, soundBody⟩ := History.all_named.1 sound
    cases resumes with
    | named body leaves =>
      refine History.all_named.2 ⟨⟨logged, (begins_updated tracks body _ _).2 node.shaped⟩, ?_⟩
      exact (ih precedes body annals soundBody).imp fun g sound ↦ sound.precedes leaves.precedes
  | first goesOn tracks ih =>
    have logged := logged (.first goesOn tracks) precedes resumes annals sound
    obtain ⟨node, soundInner, -⟩ := History.all_seq.1 sound
    cases resumes with
    | seqOk inner outer =>
      -- The second stage begins here, where all calls of the first one have ended.
      obtain ⟨annals', -⟩ := inner.annals settling annals
      obtain ⟨-, precedes'⟩ := outer.annals annals'
      have tracksInner := tracks_updated settling tracks precedes inner annals
      have begins := (begins_updated tracks inner _ _).2 node.shaped.1
      simp only [updated, inner.eq] at logged ⊢
      refine History.all_seq.2 ⟨⟨logged, begins, follows_recorded tracksInner annals'⟩,
        (ih precedes inner annals soundInner).imp fun g sound ↦ sound.precedes precedes', ?_⟩
      exact outer.sound annals'
    | seqError inner =>
      have tracksInner := tracks_updated settling tracks precedes inner annals
      have begins := (begins_updated tracks inner _ _).2 node.shaped.1
      simp only [updated, inner.eq] at logged ⊢
      refine History.all_seq.2 ⟨⟨logged, begins, follows_unreached tracksInner fun x ↦ ?_⟩,
        ih precedes inner annals soundInner, History.all_sound_unreached⟩
      simp
    | seqWait inner pending =>
      have tracksInner := tracks_updated settling tracks precedes inner annals
      have begins := (begins_updated tracks inner _ _).2 node.shaped.1
      have notOk (x : Val) := ne_done_of_pending pending (.ok x)
      rw [inner.updated_wait pending] at logged ⊢
      exact History.all_seq.2 ⟨⟨logged, begins, follows_unreached tracksInner notOk⟩,
        ih precedes inner annals soundInner, History.all_sound_unreached⟩
  | second goesOn tracks pending closed ih =>
    have logged := logged (.second goesOn tracks pending closed) precedes resumes annals sound
    have later := precedes.trans (resumes.annals settling annals).2
    obtain ⟨node, soundInner, soundOuter⟩ := History.all_seq.1 sound
    rw [updated_second tracks pending] at logged ⊢
    exact History.all_seq.2
      ⟨⟨logged, node.shaped.1, follows_updated tracks resumes node.shaped.2⟩,
        soundInner.imp fun g sound ↦ sound.precedes later,
        ih precedes resumes annals soundOuter⟩
  | @par _ flag _ _ _ q goesOn tracksLeft tracksRight ihLeft ihRight =>
    have logged := logged (.par goesOn tracksLeft tracksRight) precedes resumes annals sound
    obtain ⟨node, soundLeft, soundRight⟩ := History.all_par.1 sound
    rw [Process.calls, List.append_assoc] at annals
    have entered := annals.same (.enter _ flag)
    have inside := precedes.trans (.of_sameLog (.enter _ flag))
    cases resumes with
    | parEnds left ends =>
      obtain ⟨e, rfl, -⟩ := m.ends_iff.1 ends
      obtain ⟨annals', first⟩ := left.annals settling entered
      have dropped := (Annals.drop (p := q) annals').trans (.of_sameLog (.leave _))
      have begins := (begins_updated tracksLeft left _ _).2 node.shaped.1
      simp only [updated, left.eq, ends, if_true] at logged ⊢
      refine History.all_par.2 ⟨⟨logged, begins,
        launches_updated tracksRight (fun _ _ ↦ .rfl) node.shaped.2⟩, ?_, ?_⟩
      · refine (ihLeft inside left entered soundLeft).imp fun g sound ↦ ?_
        exact sound.precedes dropped
      · refine soundRight.imp fun g sound ↦ ?_
        exact sound.precedes ((inside.trans first).trans dropped)
    | par left notLeft right joins =>
      obtain ⟨annals', first⟩ := left.annals settling entered
      have beside := annals'.perm (List.perm_append_comm_assoc _ _ _)
      obtain ⟨annals'', second⟩ := right.annals settling beside
      have joined := joins.precedes (annals''.perm (List.perm_append_comm_assoc _ _ _))
      have begins := (begins_updated tracksLeft left _ _).2 node.shaped.1
      simp only [updated, left.eq, notLeft, Bool.false_eq_true, if_false] at logged ⊢
      refine History.all_par.2 ⟨⟨logged, begins,
        launches_updated tracksRight (begins_updated tracksRight right) node.shaped.2⟩, ?_, ?_⟩
      · refine (ihLeft inside left entered soundLeft).imp fun g sound ↦ ?_
        exact sound.precedes (second.trans joined)
      · refine (ihRight (inside.trans first) right beside soundRight).imp fun g sound ↦ ?_
        exact sound.precedes joined

end Machine

/-! ## Runs -/

/-- What a history has to do with a process and its world. -/
structure History.Recounts (m : Machine σ ω) (s : σ) (plan : Plan) (h : History σ ω) (p : Process)
    (w : World σ ω) : Prop where
  plan : h.plan = plan
  tracks : h.Tracks w p
  annals : Annals m.executor s w p.calls
  tickets : h.tickets.Perm (List.range w.calls.length)
  sound : h.All (Sound m w)

namespace History.Recounts

variable {m : Machine σ ω} {s : σ} {plan : Plan} {h : History σ ω} {p p' : Process}
  {w w' : World σ ω} {settle : Call → World σ ω → Process × World σ ω}

/-- The history of a plan that is started in a world without calls. -/
theorem of_starts {v : Val} (starts : m.Starts plan v w p w') (annals : Annals m.executor s w [])
    (none : w.calls = []) : (m.recorded plan v w).Recounts m s plan p w' where
  plan := Machine.plan_recorded plan v w
  tracks := starts.tracks annals
  annals := by
    rw [← List.append_nil p.calls]
    exact (starts.annals annals).1
  tickets := by
    obtain ⟨k, length, perm⟩ := starts.addsTickets
    rw [none] at length perm
    rw [length, List.length_nil, Nat.zero_add, List.range_eq_range']
    exact perm
  sound := starts.sound annals

theorem updated (recounts : h.Recounts m s plan p w) (settling : m.Settling settle)
    (resumes : m.Resumes settle p w p' w') :
    (m.updated settle h p w).Recounts m s plan p' w' := by
  have annals : Annals m.executor s w (p.calls ++ []) := by
    rw [List.append_nil]
    exact recounts.annals
  have tracks := recounts.tracks
  constructor
  · rw [Machine.plan_updated tracks, recounts.plan]
  · exact Machine.tracks_updated settling tracks (.refl w) resumes annals
  · rw [← List.append_nil p'.calls]
    exact (resumes.annals settling annals).1
  · obtain ⟨k, length, perm⟩ := Machine.addsTickets_updated settling tracks resumes
    refine (perm.trans (recounts.tickets.append_right _)).trans (.of_eq ?_)
    rw [length, List.range_eq_range', List.range_eq_range', ← List.range'_append_1, Nat.zero_add]
  · exact Machine.sound_updated settling tracks (.refl w) resumes annals recounts.sound

/-- Time goes on, and the caller may cancel the run. -/
theorem advance (recounts : h.Recounts m s plan p w) {t : Nat} (cancelled : Bool)
    (later : w.clock ≤ t) (waits : ∀ c ∈ p.calls, t ≤ c.wake) :
    h.Recounts m s plan p { w with clock := t, cancelled } := by
  obtain ⟨annals, precedes⟩ := recounts.annals.advance cancelled later waits
  exact ⟨recounts.plan, recounts.tracks.precedes precedes, annals, recounts.tickets,
    recounts.sound.imp fun g sound ↦ sound.precedes precedes⟩

theorem wake (recounts : h.Recounts m s plan p w) {t : Nat} (wake : p.nextWake = some t) :
    h.Recounts m s plan p { w with clock := t } := by
  obtain ⟨waits, c, hc, rfl⟩ := Process.nextWake_spec wake
  exact recounts.advance w.cancelled (recounts.annals.waits c hc) waits

theorem cancel (recounts : h.Recounts m s plan p w) {t c : Nat} (wake : p.nextWake = some t)
    (later : w.clock ≤ c) (due : c ≤ t) :
    h.Recounts m s plan p { w with clock := c, cancelled := true } := by
  refine recounts.advance true later fun d hd ↦ ?_
  exact Nat.le_trans due ((Process.nextWake_spec wake).1 d hd)

/-- The history of a run recounts it. -/
theorem of_run (m : Machine σ ω) (plan : Plan) (input : Val) (s : σ) (o : ω) (clock : Nat)
    (cancelAfter : Option Nat) : (m.history plan input s o clock cancelAfter).Recounts m s plan
      (.done (m.run plan input s o clock cancelAfter).1)
      (m.run plan input s o clock cancelAfter).2 := by
  refine Machine.history_spec (I := fun h p w ↦ h.Recounts m s plan p w)
    (J := fun h p w ↦ h.Recounts m s plan p w) ?_ ?_ ?_ ?_
  · intro p w starts
    exact of_starts starts (.initial m s o clock cancelAfter) rfl
  · intro h p w p' w' recounts resumes
    exact recounts.updated m.settling_settleStopped resumes
  · intro h p w t p' w' recounts wake resumes
    exact (recounts.wake wake).updated m.settling_settle resumes
  · intro h p w t c recounts wake _ later due
    exact recounts.cancel wake later due

end History.Recounts

/-! ## How much is evaluated -/

namespace Machine

variable {m : Machine σ ω} {settle : Call → World σ ω → Process × World σ ω} {s : σ} {plan : Plan}
  {h : History σ ω} {p : Process} {u w : World σ ω}

/-- What is written down when a plan is started is what is evaluated then. -/
theorem visits_recorded (plan : Plan) (v : Val) (w : World σ ω) :
    (m.recorded plan v w).visits = m.evaluated plan v w := by
  induction plan generalizing v w with
  | task => rfl
  | named site body ih => simp [recorded, evaluated, History.visits, ih]
  | seq outer inner ihOuter ihInner =>
    obtain ⟨q, w', first⟩ : ∃ q w', m.start inner v w = (q, w') := ⟨_, _, rfl⟩
    simp only [recorded, evaluated, first]
    cases q with
    | done r => cases r <;> simp [History.visits, ihOuter, ihInner]
    | _ => simp [History.visits, ihInner]
  | par left right ihLeft ihRight =>
    simp only [recorded, evaluated]
    split <;> simp [History.visits, ihLeft, ihRight]

theorem visits_updated (tracks : h.Tracks u p) (w : World σ ω) :
    (m.updated settle h p w).visits = h.visits + m.evaluatedBy settle p w := by
  induction tracks generalizing w with
  | done =>
    rw [updated_done]
    rfl
  | call => rfl
  | named _ _ ih =>
    simp only [updated, evaluatedBy, History.visits, ih]
    omega
  | @first _ _ _ r _ _ ih =>
    obtain ⟨q, w', first⟩ : ∃ q w', m.resume settle r w = (q, w') := ⟨_, _, rfl⟩
    simp only [updated, evaluatedBy, first]
    cases q with
    | done result =>
      cases result <;> simp only [History.visits, ih, visits_recorded] <;> omega
    | _ =>
      simp only [History.visits, ih]
      omega
  | second _ tracks pending _ ih =>
    rw [updated_second tracks pending, History.visits, History.visits, ih]
    omega
  | par _ _ _ ihLeft ihRight =>
    simp only [updated, evaluatedBy]
    split
    · simp only [History.visits, ihLeft]
      omega
    · simp only [History.visits, ihLeft, ihRight]
      omega

theorem visits_historyFrom {cancelAt : Option Nat} (recounts : h.Recounts m s plan p w)
    (before : ∀ c, cancelAt = some c → w.clock ≤ c) :
    (m.historyFrom cancelAt h p w).visits = h.visits + m.evaluatedFrom cancelAt p w := by
  have instant {h : History σ ω} {p : Process} {w : World σ ω} {t : Nat}
      (recounts : h.Recounts m s plan p w) (wake : p.nextWake = some t) :
      (m.updatedAt h p { w with clock := t }).Recounts m s plan
          (m.tick p { w with clock := t }).1 (m.tick p { w with clock := t }).2 ∧
        (m.updatedAt h p { w with clock := t }).visits =
          h.visits + m.evaluatedAt p { w with clock := t } := by
    have due := recounts.wake wake
    have settled := due.updated m.settling_settle (m.resumes _ _ _)
    refine ⟨settled.updated m.settling_settleStopped (m.resumes _ _ _), ?_⟩
    rw [updatedAt, visits_updated settled.tracks, visits_updated due.tracks, evaluatedAt]
    exact Nat.add_assoc _ _ _
  fun_induction historyFrom m cancelAt h p w with
  | case1 cancelAt h p w quiet => rw [m.evaluatedFrom_of_quiet _ _ quiet, Nat.add_zero]
  | case2 h p w t wake _ r ih =>
    obtain ⟨recounts, visits⟩ := instant recounts wake
    rw [ih recounts (by rintro c ⟨⟩), visits, m.evaluatedFrom_of_wake w wake (by rintro c ⟨⟩)]
    exact Nat.add_assoc _ _ _
  | case3 h p w t wake _ c due w' _ r ih =>
    have recounts := recounts.cancel wake (before c rfl) due
    have swept := recounts.updated m.settling_settleStopped (m.resumes _ _ _)
    rw [ih swept (by rintro c ⟨⟩), visits_updated recounts.tracks,
      m.evaluatedFrom_of_cancel w wake due]
    exact Nat.add_assoc _ _ _
  | case4 h p w t wake _ c late r ih =>
    have sooner : ∀ c', some c = some c' → t < c' := by
      rintro c' ⟨⟩
      exact Nat.not_le.1 late
    obtain ⟨recounts, visits⟩ := instant recounts wake
    have later : ∀ c', some c = some c' → r.2.clock ≤ c' := by
      intro c' same
      rw [clock_tick]
      exact Nat.le_of_lt (sooner c' same)
    rw [ih recounts later, visits, m.evaluatedFrom_of_wake w wake sooner]
    exact Nat.add_assoc _ _ _

/-- A run visits what it evaluates. -/
theorem visits_history (m : Machine σ ω) (plan : Plan) (input : Val) (s : σ) (o : ω) (clock : Nat)
    (cancelAfter : Option Nat) : (m.history plan input s o clock cancelAfter).visits =
      m.evaluatedIn plan input s o clock cancelAfter := by
  have starts := m.starts plan input (initial s o clock cancelAfter)
  have recounts := History.Recounts.of_starts starts (.initial m s o clock cancelAfter) rfl
  have swept := recounts.updated m.settling_settleStopped (m.resumes settleStopped _ _)
  refine (visits_historyFrom swept fun c at' ↦ ?_).trans ?_
  · exact Nat.le_trans (Nat.le_of_eq (clock_begun m _ _ _ _ _ _)) (le_of_cancelAt at')
  · rw [visits_updated recounts.tracks, visits_recorded]
    rfl

end Machine

/-- What makes a history that of a run of a program.  Each of its tasks is found in the log of the
run, and nothing else is. -/
structure History.Tells (p : Program) (ended : Except RunError Val × World σ ω) (h : History σ ω) :
    Prop where
  root : p.Resolves p.root h.plan
  result : h.result? = some ended.1
  tickets : h.tickets.Perm (List.range ended.2.calls.length)
  task : ∀ visit site i, .task visit site (some i) ∈ h.parts → ∃ ending,
    ended.2.calls[i]? = some ⟨site.name, visit.input, visit.world.clock, ending⟩

/-- The history of a run of a program tells it. -/
theorem History.tells_of_run {source : String} {p : Program}
    (parsed : Program.parse source = .ok p) (m : Machine σ ω) (input : Val) (s : σ) (o : ω)
    (clock : Nat) (cancelAfter : Option Nat) :
    (m.history p.plan input s o clock cancelAfter).Tells p
      (m.run p.plan input s o clock cancelAfter) := by
  have recounts := Recounts.of_run m p.plan input s o clock cancelAfter
  constructor
  · rw [recounts.plan]
    exact (Program.wellFormed_of_parse parsed).resolves_root
  · exact recounts.tracks.result?_eq
  · exact recounts.tickets
  · intro visit site i part
    exact (recounts.sound _ part).shaped i rfl

end Taskflow
