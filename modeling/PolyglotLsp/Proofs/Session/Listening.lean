import PolyglotLsp.Proofs.Progress.Hearing
import PolyglotLsp.Proofs.Session.Frame

/-!
# Listeners in sessions

Whatever requests and others do, listeners take whole turns. The only payloads that arrive are those
that servers send while they work on a request (`World.Listens`) or of their own
(`Session.arrivals`), and the only listeners that are cancelled are those that some request stops
(`Session.Stopped`) and those of a request that is cancelled. So a listener that a request has
registered, and that neither happens to (`Session.Keeps`), has all that has arrived since, or misses
only what came after its idle time (`Session.Reachable.hears_play`).
-/

namespace PolyglotLsp

variable {σ α : Type} {c : Collaborators σ}

/-- The payload of a note that a server sent while it worked on a request. -/
def Traffic.arrival? (now : Nat) : Traffic → Option Arrival
  | .noteAccepted _ note _ =>
    (Progress.offer? note.method note.params).map fun o => ⟨now, o.1, o.2⟩
  | _ => none

namespace World

/-- The listeners of a world, which take whole turns. -/
def correlator (w : World σ) : Correlator := ⟨w.core.progress, w.now, fun _ => .listening⟩

/-- The payloads that arrive between two worlds of one moment. -/
def arrivalsUpTo (w w' : World σ) : List Arrival :=
  (w'.traffic.drop w.traffic.length).filterMap (Traffic.arrival? w.now)

/-- Between two worlds of one moment, listeners take turns, payloads arrive, and these listeners are
stopped. -/
structure Listens (w w' : World σ) (stopped : List Nat) : Prop where
  now : w'.now = w.now
  traffic : w.traffic <+: w'.traffic
  runs : w.correlator.Runs (w.arrivalsUpTo w') stopped w'.correlator

variable {w w' w'' : World σ} {stopped stopped' : List Nat}

theorem arrivalsUpTo_of_traffic (seen : List Traffic) (h : w'.traffic = w.traffic ++ seen) :
    w.arrivalsUpTo w' = seen.filterMap (Traffic.arrival? w.now) := by
  rw [arrivalsUpTo, h, List.drop_left]

theorem Listens.trans (h : w.Listens w' stopped) (h' : w'.Listens w'' stopped') :
    w.Listens w'' (stopped ++ stopped') := by
  obtain ⟨seen, ht⟩ := h.traffic
  obtain ⟨seen', ht'⟩ := h'.traffic
  have both : w''.traffic = w.traffic ++ (seen ++ seen') := by
    rw [← ht', ← ht, List.append_assoc]
  have split : w.arrivalsUpTo w'' = w.arrivalsUpTo w' ++ w'.arrivalsUpTo w'' := by
    rw [arrivalsUpTo_of_traffic _ both, arrivalsUpTo_of_traffic _ ht.symm,
      arrivalsUpTo_of_traffic _ ht'.symm, List.filterMap_append, h.now]
  refine ⟨h'.now.trans h.now, h.traffic.trans h'.traffic, ?_⟩
  rw [split]
  exact h.runs.trans h'.runs

theorem Listens.nextId_le (h : w.Listens w' stopped) :
    w.core.progress.nextId ≤ w'.core.progress.nextId := h.runs.nextId_le

/-- Nothing happens that concerns listeners. -/
theorem Listens.of_eq (progress : w'.core.progress = w.core.progress) (now : w'.now = w.now)
    (seen : List Traffic) (traffic : w'.traffic = w.traffic ++ seen)
    (silent : ∀ t ∈ seen, t.arrival? w.now = none) : w.Listens w' [] := by
  have same : w'.correlator = w.correlator := by
    rw [correlator, correlator, progress, now]
  refine ⟨now, ⟨seen, traffic.symm⟩, ?_⟩
  rw [same, arrivalsUpTo_of_traffic _ traffic, List.filterMap_eq_nil_iff.2 silent]
  exact .start

theorem Listens.of_same (progress : w'.core.progress = w.core.progress) (now : w'.now = w.now)
    (traffic : w'.traffic = w.traffic) : w.Listens w' [] :=
  .of_eq progress now [] (traffic.trans (List.append_nil _).symm)
    fun _ h => absurd h List.not_mem_nil

theorem Listens.rfl : w.Listens w [] := .of_same (Eq.refl _) (Eq.refl _) (Eq.refl _)

/-- An event of the listeners that nobody else sees. -/
theorem Listens.of_step {progress : Progress} (e : Correlator.Event) (silent : e.offer? = none)
    (step : w.correlator.step e = ⟨progress, w.now, fun _ => .listening⟩) :
    w.Listens { w with core := { w.core with progress } } e.cancelled?.toList := by
  refine ⟨Eq.refl _, List.prefix_rfl, ?_⟩
  have run := Correlator.Runs.of_step (r := w.correlator) e (by rw [step]; exact Eq.refl _)
  rw [step, Correlator.offered_of_silent _ silent] at run
  rw [arrivalsUpTo_of_traffic [] (by simp)]
  exact run

/-- A note is taken in. -/
theorem listens_told (w : World σ) (server : String) (note : ServerNote) :
    w.Listens ({ w with core := (w.core.serverNotification note.method note.params).1 }.record
      (.noteAccepted server note (w.core.serverNotification note.method note.params).2)) [] := by
  have run := Correlator.Runs.of_step (r := w.correlator) (.notified note.method note.params) rfl
  have offered : w.correlator.offered (.notified note.method note.params) =
      [Traffic.noteAccepted server note
        (w.core.serverNotification note.method note.params).2].filterMap
          (Traffic.arrival? w.now) := by
    simp only [Correlator.offered, Correlator.Event.offer?, List.filterMap_cons, List.filterMap_nil,
      Traffic.arrival?]
    cases Progress.offer? note.method note.params <;> rfl
  refine ⟨rfl, List.prefix_append .., ?_⟩
  rw [arrivalsUpTo_of_traffic [_] rfl, ← offered]
  exact run

theorem listens_takeNotes (server : String) (notes : List (Nat × ServerNote)) (w : World σ) :
    w.Listens (takeNotes server w notes).1 [] := by
  induction notes generalizing w with
  | nil => exact .rfl
  | cons n rest ih =>
    obtain ⟨moment, note⟩ := n
    simp only [takeNotes]
    split
    · exact (w.listens_told server note).trans (ih _)
    · exact .rfl

/-- The notes that are not due yet are left. -/
theorem notes_takeNotes (server : String) (notes : List (Nat × ServerNote)) (w : World σ) :
    (takeNotes server w notes).2 = notes.dropWhile (·.1 ≤ w.now) := by
  induction notes generalizing w with
  | nil => rfl
  | cons n rest ih =>
    obtain ⟨moment, note⟩ := n
    by_cases due : moment ≤ w.now
    · simp only [takeNotes, due, if_true, List.dropWhile_cons, decide_true]
      exact ih _
    · simp [takeNotes, due]

theorem listens_launch (c : Collaborators σ) (w : World σ) (s : Server) (method : String)
    (params : Json) (timeout : Nat) : w.Listens (w.launch c s method params timeout).1 [] := by
  have asked : w.Listens ({ w with
      outside := (c.request w.outside s.endpoint method params).1 }.record
        (.request s.name method params)) [] :=
    .of_eq rfl rfl [_] rfl (by simp [Traffic.arrival?])
  exact asked.trans (listens_takeNotes ..)

theorem listens_depart {α : Type} (c : Collaborators σ) (method : String) (params : Json)
    (w : World σ) (server : String) (f : FanOut α) :
    w.Listens (w.depart c method params server f).1 [] := by
  unfold depart
  split
  · exact .rfl
  · next s _ => exact listens_launch c w s method params f.timeout

theorem listens_fly (shape : Shape) (flights : List Flight) (w : World σ) :
    w.Listens (fly shape w flights).1 [] := by
  induction flights generalizing w with
  | nil => exact .rfl
  | cons f rest ih =>
    have taken := listens_takeNotes f.server f.notes w
    simp only [fly]
    split
    · exact taken.trans (ih _)
    · exact taken.trans (ih _)

theorem listens_resume (w : World σ) (cancelled : Bool) (o : Op) (pending : o.Pending) :
    w.Listens (w.resume cancelled o pending).1 [] := by
  cases o with
  | classify | mapRanges | remapEdits | documentContext | synchronize => exact .rfl
  | askFirst shape | askAll shape | ask shape =>
    simp only [resume]
    split
    · exact .rfl
    · exact listens_fly shape _ w
  | _ => exact pending.elim

theorem listens_release (c : Collaborators σ) (w : World σ) (server : String) (o : Op)
    (pending : o.Pending) : w.Listens (w.release c server o pending).1 [] := by
  cases o with
  | askFirst _ _ _ params | askAll _ _ _ params | ask _ _ _ params =>
    cases params with
    | error => exact .rfl
    | ok => exact listens_depart ..
  | _ => exact .rfl

theorem listens_turn (c : Collaborators σ) (w : World σ) (cancelled : Bool) (o : Op)
    (pending : o.Pending) (turn : Turn) :
    w.Listens (w.turn c cancelled o pending turn).1 [] := by
  cases turn with
  | own => exact w.listens_resume cancelled o pending
  | release server => exact w.listens_release c server o pending

/-- Asking a service, whose state may change, and looking at its answer. -/
theorem listens_service (w : World σ) (outside : σ) {t : Traffic} (ht : t.arrival? w.now = none)
    (cancelled : Bool) (o : Op) (pending : o.Pending) :
    w.Listens (({ w with outside }.record t).resume cancelled o pending).1 [] := by
  have asked : w.Listens ({ w with outside }.record t) [] :=
    .of_eq rfl rfl [t] rfl (by simpa using ht)
  exact asked.trans (listens_resume ..)

theorem listens_polled (w : World σ) (id : Nat) :
    w.Listens { w with core := { w.core with progress := w.core.progress.poll w.now id } } [] :=
  .of_step (.polled id) rfl rfl

/-- A listener is cancelled. -/
theorem listens_cancelled (w : World σ) (id : Nat) :
    w.Listens { w with core := { w.core with progress := w.core.progress.cancel id } } [id] :=
  .of_step (.cancelled id) rfl rfl

theorem listens_registered (w : World σ) (token : Token) (idle : Nat) :
    w.Listens { w with core := { w.core with
      progress := (w.core.progress.register token idle).1 } } [] :=
  .of_step (.registered token idle) rfl rfl

theorem listens_cancelListeners (ids : List Nat) (w : World σ) :
    w.Listens (w.cancelListeners ids) ids := by
  induction ids generalizing w with
  | nil => exact .rfl
  | cons id ids ih => exact (w.listens_cancelled id).trans (ih _)

/-- The listeners that are stopped when an operation begins are those that it stops, and the one
that it registers for a request that is cancelled. -/
theorem listens_start (c : Collaborators σ) (w : World σ) (cancelled : Bool) (o : Op) :
    ∃ stopped, w.Listens (w.start c cancelled o).1 stopped ∧
      ∀ id ∈ stopped, id ∈ o.stops ∨ w.core.progress.nextId ≤ id := by
  cases o with
  | remember => exact ⟨[], .of_same rfl rfl rfl, List.forall_mem_nil _⟩
  | listen =>
    have registered := w.listens_registered
      (.text ("partial-results-" ++ toString w.core.progress.nextId))
      w.core.settings.progressTimeout
    simp only [start]
    cases given : (w.core.progress.register
      (.text ("partial-results-" ++ toString w.core.progress.nextId))
      w.core.settings.progressTimeout).2 with
    | none =>
      refine ⟨[], ?_, List.forall_mem_nil _⟩
      cases cancelled with
      | false => exact registered
      | true => exact registered
    | some id =>
      have new : w.core.progress.nextId ≤ id :=
        Nat.le_of_eq (Progress.number_of_register given).symm
      cases cancelled with
      | false => exact ⟨[], registered.trans (listens_polled _ id), List.forall_mem_nil _⟩
      | true =>
        refine ⟨[id], registered.trans ((listens_cancelled _ id).trans (listens_polled _ id)), ?_⟩
        rintro id' (_ | _)
        · exact .inr new
        · contradiction
  | stopListening id =>
    exact ⟨[id], (w.listens_cancelled id).trans (listens_polled _ id), fun _ h => .inl h⟩
  | classify | mapRanges | remapEdits =>
    refine ⟨[], ?_, List.forall_mem_nil _⟩
    simp only [start]
    split
    · exact .rfl
    · exact listens_service w _ rfl ..
  | documentContext host =>
    refine ⟨[], ?_, List.forall_mem_nil _⟩
    simp only [start]
    split
    · exact .of_same rfl rfl rfl
    · exact listens_service w _ rfl ..
  | synchronize expected document =>
    have begun : w.Listens { w with core := { w.core with synchronizer :=
        (w.core.synchronizer.begin w.core.store w.now expected document).1 } } [] :=
      .of_same rfl rfl rfl
    refine ⟨[], ?_, List.forall_mem_nil _⟩
    simp only [start]
    split
    · exact begun
    · exact begun.trans (listens_resume ..)
  | askFirst | askAll =>
    refine ⟨[], ?_, List.forall_mem_nil _⟩
    simp only [start]
    split
    · exact .rfl
    · split
      · exact .rfl
      · exact .rfl
  | ask =>
    refine ⟨[], ?_, List.forall_mem_nil _⟩
    simp only [start]
    split
    · exact .rfl
    · split
      · exact .rfl
      · split
        · exact .rfl
        · exact (listens_launch ..).trans (listens_resume ..)
  | _ => exact ⟨[], .rfl, List.forall_mem_nil _⟩

/-- A request that listens gets the next number. -/
theorem number_of_listen {cancelled : Bool} {n : Nat} {token : Token}
    (h : w.start c cancelled .listen = (w', .answered (some (n, token)))) :
    n = w.core.progress.nextId ∧ w'.core.progress.nextId = n + 1 := by
  simp only [start] at h
  obtain ⟨hw, hr⟩ := Prod.mk.inj h
  obtain ⟨id, given, pair⟩ := Option.map_eq_some_iff.1 (Op.Progress.answered.inj hr)
  cases pair
  obtain rfl := Progress.number_of_register given
  refine ⟨rfl, ?_⟩
  have next := w.core.progress.nextId_register
    (.text ("partial-results-" ++ toString w.core.progress.nextId))
    w.core.settings.progressTimeout
  rw [← hw, given, ← next]
  cases cancelled with
  | false => exact Progress.nextId_poll ..
  | true => exact Progress.nextId_poll ..

/-- A listener that a request has just registered. -/
theorem hears_listen {n : Nat} {token : Token} (fresh : w.correlator.Fresh)
    (registry : w.correlator.Registry)
    (h : w.start c false .listen = (w', .answered (some (n, token)))) :
    w'.correlator.Hears n token w.core.settings.progressTimeout w.now [] := by
  simp only [start] at h
  obtain ⟨hw, hr⟩ := Prod.mk.inj h
  obtain ⟨id, given, pair⟩ := Option.map_eq_some_iff.1 (Op.Progress.answered.inj hr)
  cases pair
  obtain rfl := Progress.number_of_register given
  have free : w.core.progress.isRegistered
      (.text ("partial-results-" ++ toString w.core.progress.nextId)) = false := by
    rw [← Bool.not_eq_true]
    intro taken
    rw [Progress.register_of_registered taken] at given
    cases given
  have registered := Correlator.hears_registered fresh free w.core.settings.progressTimeout
  have polled := registered.step (e := .polled w.core.progress.nextId) (fresh.step _)
    (registry.step fresh _) (by simp) rfl
  rw [← hw, given]
  exact polled

end World

/-! ## Turns of requests -/

namespace Thread

variable {edits : List Store.Event} {k : Call σ}

/-- A request has stopped a listener. -/
def Stopped (t : Thread σ α) (id : Nat) : Prop := ∃ k ∈ t.calls, id ∈ k.op.stops

theorem mem_calls_run (p : Prog α) (t : Thread σ α) (w : World σ) (h : k ∈ t.calls) :
    k ∈ (t.run c edits p w).2.calls := by
  induction p generalizing t w with
  | done a => exact h
  | op o next ih =>
    simp only [run]
    rcases w.start c t.cancelled o with ⟨w', r | pending⟩
    · exact ih r _ w' (List.mem_append_left _ h)
    · exact h

/-- The listeners that a turn stops are stopped by the request, unless they have been registered in
the same turn. -/
theorem listens_run (c : Collaborators σ) (edits : List Store.Event) (p : Prog α) (t : Thread σ α)
    (w : World σ) :
    ∃ stopped, w.Listens (t.run c edits p w).1 stopped ∧
      ∀ id ∈ stopped, (t.run c edits p w).2.Stopped id ∨ w.core.progress.nextId ≤ id := by
  induction p generalizing t w with
  | done a => exact ⟨[], .rfl, List.forall_mem_nil _⟩
  | op o next ih =>
    obtain ⟨stopped, started, stops⟩ := w.listens_start c t.cancelled o
    simp only [run]
    rcases hs : w.start c t.cancelled o with ⟨w', r | pending⟩ <;> rw [hs] at started
    · obtain ⟨stopped', later, own⟩ := ih r
        ((t.sends w w').answers ⟨o, ⟨w, edits⟩, ⟨w', edits⟩, r⟩) w'
      refine ⟨stopped ++ stopped', started.trans later, fun id hid => ?_⟩
      rcases List.mem_append.1 hid with hid | hid
      · exact (stops id hid).imp_left fun hid => ⟨_, mem_calls_run _ _ _
          (List.mem_append_right _ (List.mem_singleton_self _)), hid⟩
      · exact (own id hid).imp_right (Nat.le_trans started.nextId_le)
    · -- nothing that stops a listener waits
      refine ⟨stopped, started, fun id hid => (stops id hid).imp_left fun hid => ?_⟩
      cases o with
      | stopListening id => exact pending.elim
      | _ => cases hid

theorem listens_turn (c : Collaborators σ) (edits : List Store.Event) (t : Thread σ α)
    (turn : Turn) (w : World σ) :
    ∃ stopped, w.Listens (t.turn c edits turn w).1 stopped ∧
      ∀ id ∈ stopped, (t.turn c edits turn w).2.Stopped id ∨ w.core.progress.nextId ≤ id := by
  unfold Thread.turn
  split
  · cases turn with
    | own => exact listens_run ..
    | release server => exact ⟨[], .rfl, List.forall_mem_nil _⟩
  · next o pending next hs =>
    have turned := w.listens_turn c t.cancelled o pending turn
    rcases hr : w.turn c t.cancelled o pending turn with ⟨w', r | pending'⟩ <;> rw [hr] at turned
    · obtain ⟨stopped, later, own⟩ := listens_run c edits (next r)
        ((t.sends w w').answers ⟨o, t.since, ⟨w', edits⟩, r⟩) w'
      refine ⟨stopped, turned.trans later, fun id hid => ?_⟩
      exact (own id hid).imp_right (Nat.le_trans turned.nextId_le)
    · exact ⟨[], turned, List.forall_mem_nil _⟩
  · exact ⟨[], .rfl, List.forall_mem_nil _⟩

/-- A call that a request makes and that is answered between two worlds. -/
structure MadeIn (c : Collaborators σ) (w w' : World σ) (t : Thread σ α) (k : Call σ) : Prop where
  before : ∃ stopped, w.Listens k.asked.world stopped
  made : k.asked.world.start c t.cancelled k.op = (k.answered.world, .answered k.result)
  after : ∃ stopped, k.answered.world.Listens w' stopped ∧
    ∀ id ∈ stopped, t.Stopped id ∨ k.answered.world.core.progress.nextId ≤ id

theorem cancelled_run (p : Prog α) (t : Thread σ α) (w : World σ) :
    (t.run c edits p w).2.cancelled = t.cancelled := by
  rw [(run_erase c edits p t w).2]

theorem madeIn_run (p : Prog α) (t : Thread σ α) (w : World σ)
    (h : k ∈ (t.run c edits p w).2.calls) :
    k ∈ t.calls ∨ MadeIn c w (t.run c edits p w).1 (t.run c edits p w).2 k := by
  induction p generalizing t w with
  | done a => exact .inl h
  | op o next ih =>
    obtain ⟨stopped, started, -⟩ := w.listens_start c t.cancelled o
    simp only [run] at h ⊢
    rcases hs : w.start c t.cancelled o with ⟨w', r | pending⟩ <;> simp only [hs] at started h ⊢
    · rcases ih r _ w' h with h | h
      · rcases List.mem_append.1 h with h | h
        · exact .inl h
        · rw [List.mem_singleton.1 h]
          refine .inr ⟨⟨[], .rfl⟩, ?_, listens_run ..⟩
          rw [cancelled_run]
          exact hs
      · obtain ⟨stopped, before⟩ := h.before
        exact .inr ⟨⟨_, started.trans before⟩, h.made, h.after⟩
    · exact .inl h

/-- A call that a turn adds to the record of a request, unless it is the one that the request has
waited for. -/
theorem madeIn_turn (t : Thread σ α) (turn : Turn) (w : World σ)
    (h : k ∈ (t.turn c edits turn w).2.calls) :
    k ∈ t.calls ∨ MadeIn c w (t.turn c edits turn w).1 (t.turn c edits turn w).2 k ∨
      Nonempty k.op.Pending := by
  unfold Thread.turn at h ⊢
  split at h
  · next p hs =>
    cases turn with
    | own => exact (madeIn_run p t w h).imp_right .inl
    | release server => exact .inl h
  · next o pending next hs =>
    have turned := w.listens_turn c t.cancelled o pending turn
    rcases hr : w.turn c t.cancelled o pending turn with ⟨w', r | pending'⟩ <;>
      simp only [hr] at turned h ⊢
    · rcases madeIn_run (next r) _ w' h with h | h
      · rcases List.mem_append.1 h with h | h
        · exact .inl h
        · rw [List.mem_singleton.1 h]
          exact .inr (.inr ⟨pending⟩)
      · obtain ⟨stopped, before⟩ := h.before
        exact .inr (.inl ⟨⟨_, turned.trans before⟩, h.made, h.after⟩)
    · exact .inl h
  · exact .inl h

end Thread

/-! ## Sessions -/

theorem Core.progress_change (core : Core) (k : Change) :
    (core.change k).1.progress =
      match k with
      | .told method params => (core.progress.deliverNotification method params).1
      | .shutDown => core.progress.dispose
      | _ => core.progress := by
  cases k with
  | told | started | configured | shutDown | registered | unregistered | syncTimeout
  | syncRejects | requestTimeout => rfl
  | _ => rw [core.change_of_documents rfl]

theorem World.listens_pollListeners (w : World σ) : w.Listens w.pollListeners [] := by
  suffices each : ∀ (ids : List Nat) (w : World σ), w.Listens { w with core := { w.core with
      progress := ids.foldl (fun p id => p.poll w.now id) w.core.progress } } [] from each _ w
  intro ids
  induction ids with
  | nil => exact fun w => .rfl
  | cons id ids ih => exact fun w => (w.listens_polled id).trans (ih _)

namespace Session

variable {s : Session σ α}

/-- Some request under way has stopped a listener. -/
def Stopped (s : Session σ α) (id : Nat) : Prop := ∃ t ∈ s.threads, t.Stopped id

/-- The payload of a notification that a server sends of its own. -/
def Event.told? : Event σ α → Option (Token × Json)
  | .changed (.told method params) => Progress.offer? method params
  | _ => none

/-- The payloads that arrive by a step. -/
def arrivalsBy (c : Collaborators σ) (s : Session σ α) (e : Event σ α) : List Arrival :=
  (e.told?.toList.map fun o => ⟨s.world.now, o.1, o.2⟩) ++
    s.world.arrivalsUpTo (s.step c e).world

/-- The payloads that arrive by several steps. -/
def arrivals (c : Collaborators σ) (s : Session σ α) : List (Event σ α) → List Arrival
  | [] => []
  | e :: events => s.arrivalsBy c e ++ arrivals c (s.step c e) events

/-- The clock is not set back by a step. -/
def Event.Onward (s : Session σ α) : Event σ α → Prop
  | .clock now => s.world.now ≤ now
  | _ => True

/-- The clock is never set back. -/
def Onward (c : Collaborators σ) (s : Session σ α) : List (Event σ α) → Prop
  | [] => True
  | e :: events => e.Onward s ∧ Onward c (s.step c e) events

instance Event.decidableOnward (s : Session σ α) : (e : Event σ α) → Decidable (e.Onward s)
  | .clock now => inferInstanceAs (Decidable (s.world.now ≤ now))
  | .changed _ | .elsewhere _ | .spawned .. | .cancelled _ | .dropped _ | .listened | .polled _
  | .released .. => isTrue trivial

instance decidableOnward (c : Collaborators σ) (s : Session σ α) :
    (events : List (Event σ α)) → Decidable (s.Onward c events)
  | [] => isTrue trivial
  | e :: events =>
    have := decidableOnward c (s.step c e) events
    inferInstanceAs (Decidable (e.Onward s ∧ Onward c (s.step c e) events))

/-- A change of the router. -/
theorem runs_changed (c : Collaborators σ) (s : Session σ α) (k : Change) :
    s.world.correlator.Runs (s.arrivalsBy c (.changed k)) []
      (s.step c (.changed k)).world.correlator := by
  have world := s.world_changed c k
  have progress := s.world.core.progress_change k
  have silent : s.world.arrivalsUpTo (s.change c k).world = [] := by
    rw [World.arrivalsUpTo_of_traffic _ (congrArg World.traffic world), List.filterMap_eq_nil_iff]
    intro t ht
    obtain ⟨n, -, hn⟩ := List.mem_flatMap.1 ht
    obtain ⟨server, -, rfl⟩ := List.mem_map.1 hn
    rfl
  have correlator : (s.change c k).world.correlator =
      ⟨(s.world.core.change k).1.progress, s.world.now, fun _ => .listening⟩ := by
    rw [world]
    rfl
  simp only [arrivalsBy, step, silent, correlator, progress, List.append_nil]
  cases k with
  | told method params => exact Correlator.Runs.of_step (.notified method params) rfl
  | shutDown => exact Correlator.Runs.of_step .disposed rfl
  | opened | edited | closed | regenerated | started | configured | registered | unregistered
  | stored | forgot | syncTimeout | syncRejects | requestTimeout => exact .start

/-- Time passes. -/
theorem runs_clock (c : Collaborators σ) {now : Nat} (h : s.world.now ≤ now) :
    s.world.correlator.Runs (s.arrivalsBy c (.clock now)) []
      (s.step c (.clock now)).world.correlator := by
  have silent : s.world.arrivalsUpTo { s.world with now } = [] :=
    World.arrivalsUpTo_of_traffic [] (List.append_nil _).symm
  have passed := Correlator.Runs.of_step (r := s.world.correlator) (.passed (now - s.world.now)) rfl
  have later : s.world.correlator.step (.passed (now - s.world.now)) =
      World.correlator { s.world with now } := by
    simp only [Correlator.step, World.correlator, Nat.add_sub_cancel' h]
  rw [later] at passed
  simp only [arrivalsBy, step, silent]
  exact passed

/-- A turn of a request, or of a task that it has spawned. -/
theorem runs_turn (c : Collaborators σ) (s : Session σ α) (place : Nat) (turn : Turn) :
    ∃ stopped,
      s.world.correlator.Runs (s.world.arrivalsUpTo (s.turn c place turn).world) stopped
        (s.turn c place turn).world.correlator ∧
      ∀ id ∈ stopped, (s.turn c place turn).Stopped id ∨ s.world.core.progress.nextId ≤ id := by
  simp only [Session.turn]
  split
  · exact ⟨[], (World.Listens.rfl (w := s.world)).runs, List.forall_mem_nil _⟩
  · next t ht =>
    have inside : place < s.threads.length := (List.getElem?_eq_some_iff.1 ht).1
    obtain ⟨stopped, listens, own⟩ := t.listens_turn c s.edits turn s.world
    refine ⟨stopped, listens.runs, fun id hid => ?_⟩
    exact (own id hid).imp_left fun stops => ⟨_, List.mem_set inside _, stops⟩

theorem runs_step {e : Event σ α} (h : e.Onward s) :
    ∃ stopped,
      s.world.correlator.Runs (s.arrivalsBy c e) stopped (s.step c e).world.correlator ∧
      ∀ id ∈ stopped, (s.step c e).Stopped id ∨ s.world.core.progress.nextId ≤ id ∨
        ∃ owner, e = .cancelled owner ∧ (id, owner) ∈ s.listening := by
  cases e with
  | changed k => exact ⟨[], s.runs_changed c k, List.forall_mem_nil _⟩
  | elsewhere f =>
    have same : s.world.Listens (s.step c (.elsewhere f)).world [] := .of_same rfl rfl rfl
    exact ⟨[], same.runs, List.forall_mem_nil _⟩
  | spawned | dropped => exact ⟨[], (World.Listens.rfl (w := s.world)).runs, List.forall_mem_nil _⟩
  | cancelled owner =>
    refine ⟨_, (World.listens_cancelListeners _ s.world).runs, fun id hid => ?_⟩
    obtain ⟨l, found, rfl⟩ := List.mem_map.1 hid
    obtain ⟨known, own⟩ := List.mem_filter.1 found
    exact .inr (.inr ⟨owner, rfl, of_decide_eq_true own ▸ known⟩)
  | listened => exact ⟨[], s.world.listens_pollListeners.runs, List.forall_mem_nil _⟩
  | polled place =>
    obtain ⟨stopped, run, own⟩ := s.runs_turn c place .own
    exact ⟨stopped, run, fun id hid => (own id hid).imp_right .inl⟩
  | released place server =>
    obtain ⟨stopped, run, own⟩ := s.runs_turn c place (.release server)
    exact ⟨stopped, run, fun id hid => (own id hid).imp_right .inl⟩
  | clock now => exact ⟨[], runs_clock c h, List.forall_mem_nil _⟩

/-- Throughout some steps, no request has stopped a listener, and none is cancelled that has
registered it. -/
structure Keeps (c : Collaborators σ) (s : Session σ α) (events : List (Event σ α)) (id : Nat) :
    Prop where
  unstopped : ∀ earlier, earlier <+: events → ¬ (s.play c earlier).Stopped id
  uncancelled : ∀ earlier owner, earlier ++ [.cancelled owner] <+: events →
    (id, owner) ∉ (s.play c earlier).listening

theorem Keeps.tail {e : Event σ α} {events : List (Event σ α)} {id : Nat}
    (h : s.Keeps c (e :: events) id) : (s.step c e).Keeps c events id where
  unstopped earlier before := h.unstopped (e :: earlier) ((List.prefix_cons_inj e).2 before)
  uncancelled earlier owner before :=
    h.uncancelled (e :: earlier) owner ((List.prefix_cons_inj e).2 before)

theorem runs_play {events : List (Event σ α)} (h : s.Onward c events) {id : Nat}
    (keeps : s.Keeps c events id) (known : id < s.world.core.progress.nextId) :
    ∃ stopped,
      s.world.correlator.Runs (s.arrivals c events) stopped (s.play c events).world.correlator ∧
      id ∉ stopped := by
  induction events generalizing s with
  | nil => exact ⟨[], .start, List.not_mem_nil⟩
  | cons e events ih =>
    obtain ⟨stopped, run, stops⟩ := runs_step (c := c) h.1
    obtain ⟨stopped', later, spared⟩ := ih h.2 keeps.tail (Nat.lt_of_lt_of_le known run.nextId_le)
    refine ⟨stopped ++ stopped', run.trans later, fun hid => ?_⟩
    rcases List.mem_append.1 hid with hid | hid
    · rcases stops id hid with stop | new | ⟨owner, rfl, own⟩
      · exact keeps.unstopped [e] ⟨events, rfl⟩ stop
      · exact absurd known (Nat.not_lt.2 new)
      · exact keeps.uncancelled [] owner ⟨events, rfl⟩ own
    · exact spared hid

/-- In every session, tokens are registered for live listeners, under numbers that are given out one
after the other. -/
theorem Reachable.registered (h : s.Reachable c) :
    s.world.correlator.Fresh ∧ s.world.correlator.Registry := by
  induction h with
  | new outside => exact ⟨Correlator.fresh [], Correlator.registry []⟩
  | @step s h e ih =>
    obtain ⟨fresh, registry⟩ := ih
    have step (onward : e.Onward s) : (s.step c e).world.correlator.Fresh ∧
        (s.step c e).world.correlator.Registry := by
      obtain ⟨stopped, run, -⟩ := runs_step (c := c) onward
      exact ⟨run.fresh fresh, run.registry fresh registry⟩
    cases e with
    | clock now => exact ⟨⟨fresh.listener, fresh.phase⟩, registry⟩
    | changed | elsewhere | spawned | cancelled | dropped | listened | polled | released =>
      exact step trivial

/-- A listener that a request registers in one of its turns has what arrives in the rest of the
turn, unless the request stops it or has been cancelled. -/
theorem Reachable.hears_listened (h : s.Reachable c) {asked answered : Moment σ} {n : Nat}
    {token : Token} {w : World σ} {t : Thread σ α}
    (made : t.MadeIn c s.world w ⟨.listen, asked, answered, some (n, token)⟩)
    (uncancelled : t.cancelled = false) (own : ¬ t.Stopped n) :
    w.correlator.Hears n token asked.world.core.settings.progressTimeout answered.world.now
      (answered.world.arrivalsUpTo w) := by
  obtain ⟨⟨_, before⟩, start, stopped, after, stops⟩ := made
  rw [uncancelled] at start
  obtain ⟨fresh, registry⟩ := h.registered
  obtain ⟨_, run, -⟩ := World.listens_start c asked.world false .listen
  obtain ⟨-, next⟩ := World.number_of_listen start
  have hears := World.hears_listen (before.runs.fresh fresh) (before.runs.registry fresh registry)
    start
  rw [start] at run
  have earlier := (before.trans run).runs
  rw [← run.now] at hears
  refine hears.run rfl (earlier.fresh fresh) (earlier.registry fresh registry) after.runs
    fun stopped => ?_
  rcases stops n stopped with stopped | new
  · exact own stopped
  · omega

/-- The turn of a request in which a call is made. -/
theorem madeIn_of_mem (s : Session σ α) (place : Nat) (turn : Turn) {k : Call σ}
    (new : ∀ t ∈ s.threads, k ∉ t.calls) {t : Thread σ α}
    (ht : t ∈ (s.turn c place turn).threads) (hk : k ∈ t.calls) :
    t.MadeIn c s.world (s.turn c place turn).world k ∨ Nonempty k.op.Pending := by
  unfold Session.turn at ht ⊢
  split at ht
  · exact absurd hk (new t ht)
  · next t₀ ht₀ =>
    rcases List.mem_or_eq_of_mem_set ht with old | rfl
    · exact absurd hk (new t old)
    · rcases Thread.madeIn_turn t₀ turn s.world hk with old | made | waited
      · exact absurd old (new t₀ (List.mem_of_getElem? ht₀))
      · exact .inl made
      · exact .inr waited

/-- A listener that a request has registered, and that is kept. -/
theorem Reachable.hears_play (h : s.Reachable c) {turn : Nat} {asked listened : Moment σ} {n : Nat}
    {token : Token} (new : ∀ t ∈ s.threads, ⟨.listen, asked, listened, some (n, token)⟩ ∉ t.calls)
    {t : Thread σ α} (ht : t ∈ (s.step c (.polled turn)).threads)
    (began : ⟨.listen, asked, listened, some (n, token)⟩ ∈ t.calls)
    (uncancelled : t.cancelled = false) {events : List (Event σ α)}
    (onward : (s.step c (.polled turn)).Onward c events)
    (keeps : (s.step c (.polled turn)).Keeps c events n) :
    ((s.step c (.polled turn)).play c events).world.correlator.Hears n token
      asked.world.core.settings.progressTimeout listened.world.now
      (listened.world.arrivalsUpTo (s.step c (.polled turn)).world ++
        (s.step c (.polled turn)).arrivals c events) := by
  have made : t.MadeIn c s.world (s.step c (.polled turn)).world
      ⟨.listen, asked, listened, some (n, token)⟩ := by
    rcases madeIn_of_mem s turn .own new ht began with made | waited
    · exact made
    · exact waited.elim Empty.elim
  have hears := h.hears_listened made uncancelled
    fun stopped => keeps.unstopped [] List.nil_prefix ⟨t, ht, stopped⟩
  have known : n < (s.step c (.polled turn)).world.core.progress.nextId := by
    obtain ⟨-, next⟩ := World.number_of_listen made.made
    obtain ⟨_, after, -⟩ := made.after
    have later := after.nextId_le
    dsimp only at next later
    omega
  obtain ⟨stopped, run, spared⟩ := runs_play onward keeps known
  obtain ⟨fresh, registry⟩ := (h.step (.polled turn)).registered
  exact hears.run rfl fresh registry run spared

end Session

end PolyglotLsp
