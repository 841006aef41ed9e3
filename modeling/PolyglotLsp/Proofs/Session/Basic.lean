import PolyglotLsp.Proofs.Document.History
import PolyglotLsp.Router.Machine

/-!
# Sessions

A session is a router with the requests under way, together with what a machine does not remember:
the history of its store and, for each request, the operations that answered it and what it sent to
servers. Sessions take one step at a time, in any order: somebody changes the router's state, a
request is begun, cancelled or dropped, the listeners or one of the requests go on, a request goes
out to one of its servers, the clock is set, or something changes outside. Leaving the records away
gives the machine (`Session.machine`). Whatever a machine does, its scheduler included, steps of a
session do as well, so that what holds of all reachable sessions holds of every machine that is
driven (`Session.exists_reachable_of_driven`).
-/

namespace PolyglotLsp

/-! ## Changes of the router's state -/

/-- What can happen to a router between the turns of its requests. -/
inductive Change where
  /-- The editor opens, edits or closes a document. -/
  | opened (d : OpenedDocument)
  | edited (d : ChangedDocument)
  | closed (uri : Uri)
  /-- The compiler regenerates a virtual document. -/
  | regenerated (r : Regeneration)
  /-- A server sends a notification of its own. -/
  | told (method : String) (params : Json)
  /-- The editor starts, configures or ends the session. -/
  | started (s : Core.Surroundings) (i : Initialization)
  | configured (s : Core.Surroundings) (settings : Json)
  | shutDown
  /-- Servers come and go. -/
  | registered (s : Server)
  | unregistered (name : String)
  /-- Somebody uses the store, the synchronizer or the timeouts directly. -/
  | stored (e : Store.Event)
  | forgot (host : Url)
  | syncTimeout (timeout : Nat)
  | syncRejects (rejects : Bool)
  | requestTimeout (timeout : Nat)

/-- The router after a change, and the notifications that it passes on. -/
def Core.change (c : Core) : Change → Core × List Notice
  | .opened d => (c.openDocument d, [])
  | .edited d => (c.changeDocument d, [])
  | .closed uri => c.closeDocument uri
  | .regenerated r => ((c.regenerate r).1, (c.regenerate r).2.1)
  | .told method params => ((c.serverNotification method params).1, [])
  | .started s i => (c.startSession s i, [])
  | .configured s settings => (c.configure s settings, [])
  | .shutDown => (c.shutdown, [])
  | .registered s => ({ c with registry := c.registry.register s }, [])
  | .unregistered name => ({ c with registry := (c.registry.unregister name).1 }, [])
  | .stored e => ({ c with store := c.store.step e }, [])
  | .forgot host => ({ c with synchronizer := c.synchronizer.forget host }, [])
  | .syncTimeout timeout => ({ c with synchronizer := { c.synchronizer with timeout } }, [])
  | .syncRejects rejects => ({ c with synchronizer := { c.synchronizer with rejects } }, [])
  | .requestTimeout timeout => ({ c with requestTimeout := timeout }, [])

/-- Whether a change is one of documents only. -/
def Change.ofDocuments : Change → Bool
  | .opened _ | .edited _ | .closed _ | .regenerated _ | .stored _ | .forgot _ => true
  | _ => false

/-- A change of documents leaves everything but the store and the records of waits. -/
theorem Core.change_of_documents (core : Core) {k : Change} (h : k.ofDocuments = true) :
    (core.change k).1 = { core with
      store := (core.change k).1.store
      synchronizer := { core.synchronizer with
        records := (core.change k).1.synchronizer.records } } := by
  cases k with
  | opened d =>
    simp only [change, openDocument]
    split <;> rfl
  | edited d =>
    simp only [change, changeDocument]
    split
    · rfl
    · split <;> rfl
  | closed uri =>
    simp only [change, closeDocument]
    split
    · rfl
    · split <;> rfl
  | regenerated r =>
    simp only [change, regenerate]
    split <;> rfl
  | stored | forgot => rfl
  | _ => cases h

def Change.edits : Change → List Store.Event
  | .opened d => d.uri.toUrl?.toList.map fun url => .opened url d.version d.text
  | .edited d => d.uri.toUrl?.toList.map fun url => .edited url d.version d.changes
  | .closed uri => uri.toUrl?.toList.map .closed
  | .regenerated r => [.regenerated r]
  | .stored e => [e]
  | _ => []

/-- The store of a router follows its history. -/
theorem Core.store_change {c : Core} {past : List Store.Event} (h : c.store = Store.after past)
    (k : Change) : (c.change k).1.store = Store.after (k.edits ++ past) := by
  cases k with
  | opened d =>
    simp only [change, openDocument, Change.edits]
    cases d.uri.toUrl? with
    | none => exact h
    | some url => simp [h, Store.after, Store.step]
  | edited d =>
    simp only [change, changeDocument, Change.edits]
    cases d.uri.toUrl? with
    | none => exact h
    | some url =>
      simp only [h, Option.toList, List.map, List.cons_append, List.nil_append, Store.after,
        Store.step]
      split <;> simp_all
  | closed uri =>
    simp only [change, closeDocument, Change.edits]
    cases uri.toUrl? with
    | none => exact h
    | some url =>
      simp only [h, Option.toList, List.map, List.cons_append, List.nil_append, Store.after,
        Store.step]
      split
      · next hn =>
        -- closing a host that is not open leaves the store alone
        rw [Store.get?, Option.map_eq_none_iff] at hn
        simp [Store.close, hn]
      · rfl
  | regenerated r =>
    simp only [change, regenerate, Change.edits, h, List.cons_append, List.nil_append, Store.after,
      Store.step]
    cases hr : (Store.after past).regenerate r with
    | error e => simp [h]
    | ok result =>
      obtain ⟨s, _ | d⟩ := result
      · simp [h, Store.regenerate_none hr]
      · simp
  | stored e => simp [change, Change.edits, h, Store.after]
  | told | started | configured | shutDown | registered | unregistered | forgot | syncTimeout
  | syncRejects | requestTimeout => exact h

/-! ## Records of a request -/

/-- A moment of a session: the world, and what has happened to its store, the latest first. -/
structure Moment (σ : Type) where
  world : World σ
  edits : List Store.Event

namespace Moment

variable {σ : Type}

def store (m : Moment σ) : Store := m.world.core.store

/-- The store is what its history has made of it. -/
def Sound (m : Moment σ) : Prop := m.store = Store.after m.edits

end Moment

/-- An operation that has answered: when it was asked, when it answered, and what. -/
structure Call (σ : Type) where
  op : Op
  asked : Moment σ
  answered : Moment σ
  result : op.Result

/-- A request that a server received, and the operations that had answered before it was sent. -/
structure Sent (σ : Type) where
  server : String
  method : String
  params : Json
  calls : List (Call σ)

/-- A request under way with its record: its program, the operations that have answered, what it
sent to servers, and when the operation it waits for was asked. -/
structure Thread (σ α : Type) extends Task α where
  program : Prog α
  calls : List (Call σ)
  sent : List (Sent σ)
  since : Moment σ

/-- The server, method and parameters of a request among the traffic. -/
def Traffic.request? : Traffic → Option (String × String × Json)
  | .request server method params => some (server, method, params)
  | _ => none

/-- The requests that servers received between two worlds. -/
def World.requestsUpTo {σ : Type} (w w' : World σ) : List (String × String × Json) :=
  (w'.traffic.drop w.traffic.length).filterMap Traffic.request?

namespace Thread

variable {σ α : Type}

def sends (t : Thread σ α) (w w' : World σ) : Thread σ α :=
  { t with
    sent := t.sent ++ (w.requestsUpTo w').map fun (server, method, params) =>
      ⟨server, method, params, t.calls⟩ }

def answers (t : Thread σ α) (k : Call σ) : Thread σ α := { t with calls := t.calls ++ [k] }

def run (c : Collaborators σ) (edits : List Store.Event) :
    Prog α → Thread σ α → World σ → World σ × Thread σ α
  | .done a, t, w => (w, { t with state := .finished a })
  | .op o next, t, w =>
    match w.start c t.cancelled o with
    | (w', .answered r) =>
      run c edits (next r) ((t.sends w w').answers ⟨o, ⟨w, edits⟩, ⟨w', edits⟩, r⟩) w'
    | (w', .waiting pending) =>
      (w', { t.sends w w' with state := .blocked o pending next, since := ⟨w, edits⟩ })

/-- A turn of a request, or of a task that it has spawned for a server. -/
def turn (c : Collaborators σ) (edits : List Store.Event) (t : Thread σ α) (turn : Turn)
    (w : World σ) : World σ × Thread σ α :=
  match t.state with
  | .ready p =>
    match turn with
    | .own => run c edits p t w
    | .release _ => (w, t)
  | .blocked o pending next =>
    match w.turn c t.cancelled o pending turn with
    | (w', .answered r) =>
      run c edits (next r) ((t.sends w w').answers ⟨o, t.since, ⟨w', edits⟩, r⟩) w'
    | (w', .waiting pending) =>
      (w', { t.sends w w' with state := .blocked o pending next })
  | .finished _ => (w, t)

@[simp] theorem program_run (c : Collaborators σ) (edits : List Store.Event) (p : Prog α)
    (t : Thread σ α) (w : World σ) : (t.run c edits p w).2.program = t.program := by
  induction p generalizing t w with
  | done a => rfl
  | op o next ih =>
    simp only [run]
    rcases w.start c t.cancelled o with ⟨w', r | pending⟩
    · exact ih r ((t.sends w w').answers ⟨o, ⟨w, edits⟩, ⟨w', edits⟩, r⟩) w'
    · rfl

@[simp] theorem program_turn (c : Collaborators σ) (edits : List Store.Event) (t : Thread σ α)
    (turn : Turn) (w : World σ) : (t.turn c edits turn w).2.program = t.program := by
  unfold Thread.turn
  split
  · cases turn with
    | own => exact program_run ..
    | release server => rfl
  · next o pending next _ =>
    rcases w.turn c t.cancelled o pending turn with ⟨w', r | pending'⟩
    · exact program_run c edits (next r)
        ((t.sends w w').answers ⟨o, t.since, ⟨w', edits⟩, r⟩) w'
    · rfl
  · rfl

/-- The record does not influence the run. -/
theorem run_erase (c : Collaborators σ) (edits : List Store.Event) (p : Prog α) (t : Thread σ α)
    (w : World σ) :
    (t.run c edits p w).1 = (w.run c t.cancelled p).1 ∧
      (t.run c edits p w).2.toTask = { t.toTask with state := (w.run c t.cancelled p).2 } := by
  induction p generalizing t w with
  | done a => exact ⟨rfl, rfl⟩
  | op o next ih =>
    simp only [run, World.run]
    rcases w.start c t.cancelled o with ⟨w', r | pending⟩
    · exact ih r ((t.sends w w').answers ⟨o, ⟨w, edits⟩, ⟨w', edits⟩, r⟩) w'
    · exact ⟨rfl, rfl⟩

theorem turn_erase (c : Collaborators σ) (edits : List Store.Event) (t : Thread σ α)
    (turn : Turn) (w : World σ) :
    (t.turn c edits turn w).1 = (w.poll c t.cancelled turn t.state).1 ∧
      (t.turn c edits turn w).2.toTask =
        { t.toTask with state := (w.poll c t.cancelled turn t.state).2 } := by
  cases hs : t.state with
  | ready p =>
    simp only [Thread.turn, World.poll, hs]
    cases turn with
    | own => exact run_erase c edits p t w
    | release server =>
      refine ⟨rfl, ?_⟩
      rw [← hs]
  | blocked o pending next =>
    simp only [Thread.turn, World.poll, hs]
    rcases w.turn c t.cancelled o pending turn with ⟨w', r | pending'⟩
    · exact run_erase c edits (next r) ((t.sends w w').answers ⟨o, t.since, ⟨w', edits⟩, r⟩) w'
    · exact ⟨rfl, rfl⟩
  | finished a =>
    simp only [Thread.turn, World.poll, hs]
    refine ⟨trivial, ?_⟩
    rw [← hs]

end Thread

/-! ## Sessions and their steps -/

/-- A router with the history of its store, the requests under way, in the order of their starts,
and the listeners that requests have registered. -/
structure Session (σ α : Type) where
  world : World σ
  edits : List Store.Event
  threads : List (Thread σ α)
  nextId : Nat
  listening : List (Nat × Nat)

namespace Session

variable {σ α : Type}

/-- One step of a session. -/
inductive Event (σ α : Type) where
  | changed (k : Change)
  | elsewhere (f : σ → σ)
  | spawned (cancelled : Bool) (p : Prog α)
  | cancelled (id : Nat)
  | dropped (id : Nat)
  | listened
  | polled (place : Nat)
  | released (place : Nat) (server : String)
  | clock (now : Nat)

/-- A router that nobody has talked to. -/
def new (outside : σ) : Session σ α := ⟨⟨Core.new, outside, 0, []⟩, [], [], 0, []⟩

def moment (s : Session σ α) : Moment σ := ⟨s.world, s.edits⟩

/-- The session without its records. -/
def machine (s : Session σ α) : Machine σ α :=
  ⟨s.world, s.threads.map (·.toTask), s.nextId, s.listening⟩

def notify (c : Collaborators σ) (w : World σ) (notices : List Notice) : World σ :=
  notices.foldl (fun w n => (w.notify c n).1) w

def change (c : Collaborators σ) (s : Session σ α) (k : Change) : Session σ α :=
  let (core, notices) := s.world.core.change k
  { s with world := notify c { s.world with core } notices, edits := k.edits ++ s.edits }

def spawn (s : Session σ α) (cancelled : Bool) (p : Prog α) : Session σ α :=
  { s with
    threads := s.threads ++ [⟨⟨s.nextId, cancelled, .ready p⟩, p, [], [], s.moment⟩]
    nextId := s.nextId + 1 }

def cancel (s : Session σ α) (id : Nat) : Session σ α :=
  { s with
    world := s.world.cancelListeners (listenersOf s.listening id)
    threads := s.threads.map fun t => if t.id = id then { t with cancelled := true } else t }

/-- A turn of the request at a place, or of a task that it has spawned for a server. -/
def turn (c : Collaborators σ) (s : Session σ α) (place : Nat) (turn : Turn) : Session σ α :=
  match s.threads[place]? with
  | none => s
  | some t =>
    let (world, t) := t.turn c s.edits turn s.world
    { s with
      world
      threads := s.threads.set place t
      listening := s.listening ++ s.world.listenersUpTo world t.id }

def step (c : Collaborators σ) (s : Session σ α) : Event σ α → Session σ α
  | .changed k => s.change c k
  | .elsewhere f => { s with world := { s.world with outside := f s.world.outside } }
  | .spawned cancelled p => s.spawn cancelled p
  | .cancelled id => s.cancel id
  | .dropped id => { s with threads := s.threads.filter (·.id ≠ id) }
  | .listened => { s with world := s.world.pollListeners }
  | .polled place => s.turn c place .own
  | .released place server => s.turn c place (.release server)
  | .clock now => { s with world := { s.world with now } }

/-- The session after several steps, the first one first. -/
def play (c : Collaborators σ) (s : Session σ α) (events : List (Event σ α)) : Session σ α :=
  events.foldl (step c) s

inductive Reachable (c : Collaborators σ) : Session σ α → Prop where
  | new (outside : σ) : Reachable c (.new outside)
  | step {s : Session σ α} (h : Reachable c s) (e : Event σ α) : Reachable c (s.step c e)

theorem Reachable.play {c : Collaborators σ} {s : Session σ α} (h : Reachable c s)
    (events : List (Event σ α)) : Reachable c (s.play c events) := by
  induction events generalizing s with
  | nil => exact h
  | cons e events ih => exact ih (h.step e)

theorem program_step {c : Collaborators σ} {s : Session σ α} {e : Event σ α} {t : Thread σ α}
    (h : t ∈ (s.step c e).threads) :
    (∃ t' ∈ s.threads, t'.program = t.program) ∨ ∃ cancelled, e = .spawned cancelled t.program := by
  cases e with
  | changed | elsewhere | listened | clock => exact .inl ⟨t, h, rfl⟩
  | spawned cancelled p =>
    rcases List.mem_append.1 h with h | h
    · exact .inl ⟨t, h, rfl⟩
    · rw [List.mem_singleton.1 h]
      exact .inr ⟨cancelled, rfl⟩
  | cancelled id =>
    obtain ⟨t', ht', rfl⟩ := List.mem_map.1 h
    refine .inl ⟨t', ht', ?_⟩
    by_cases hid : t'.id = id <;> simp [hid]
  | dropped id => exact .inl ⟨t, (List.mem_filter.1 h).1, rfl⟩
  | polled | released =>
    simp only [step, turn] at h
    split at h
    · exact .inl ⟨t, h, rfl⟩
    · next t' ht' =>
      rcases List.mem_or_eq_of_mem_set h with h | rfl
      · exact .inl ⟨t, h, rfl⟩
      · exact .inl ⟨t', List.mem_of_getElem? ht', (Thread.program_turn ..).symm⟩

/-- Every request of a session runs a program that was begun. -/
theorem program_play {c : Collaborators σ} {s : Session σ α} {events : List (Event σ α)}
    {t : Thread σ α} (h : t ∈ (s.play c events).threads) :
    (∃ t' ∈ s.threads, t'.program = t.program) ∨
      ∃ cancelled, .spawned cancelled t.program ∈ events := by
  induction events generalizing s with
  | nil => exact .inl ⟨t, h, rfl⟩
  | cons e events ih =>
    rcases ih h with ⟨t', ht', hp⟩ | ⟨cancelled, he⟩
    · rcases program_step ht' with ⟨t'', ht'', hp'⟩ | ⟨cancelled, rfl⟩
      · exact .inl ⟨t'', ht'', hp'.trans hp⟩
      · exact .inr ⟨cancelled, hp ▸ List.mem_cons_self⟩
    · exact .inr ⟨cancelled, List.mem_cons_of_mem _ he⟩

/-- The program that an event begins. -/
def Event.begins? : Event σ α → Option (Prog α)
  | .spawned _ p => some p
  | _ => none

theorem program_mem_begun {c : Collaborators σ} {outside : σ} {events : List (Event σ α)}
    {t : Thread σ α} (h : t ∈ ((new outside).play c events).threads) :
    t.program ∈ events.filterMap Event.begins? := by
  rcases program_play h with ⟨t', none, -⟩ | ⟨cancelled, begun⟩
  · cases none
  · exact List.mem_filterMap.2 ⟨_, begun, rfl⟩

/-! ## The machine's scheduler -/

theorem play_append (c : Collaborators σ) (s : Session σ α) (es es' : List (Event σ α)) :
    s.play c (es ++ es') = (s.play c es).play c es' := List.foldl_append

theorem machine_turn (c : Collaborators σ) (s : Session σ α) (place : Nat) (turn : Turn) :
    (s.turn c place turn).machine = s.machine.turn c place turn := by
  simp only [Session.turn, Machine.turn, machine, List.getElem?_map]
  cases s.threads[place]? with
  | none => rfl
  | some t =>
    obtain ⟨world, task⟩ := t.turn_erase c s.edits turn s.world
    simp only [Option.map_some, List.map_set, world, task]

/-- Some steps of the session lead to this machine. -/
def Leads (c : Collaborators σ) (s : Session σ α) (m : Machine σ α) : Prop :=
  ∃ events, (s.play c events).machine = m

theorem Leads.trans {c : Collaborators σ} {s : Session σ α} {m m' : Machine σ α}
    (h : s.Leads c m) (h' : ∀ s' : Session σ α, s'.machine = m → s'.Leads c m') :
    s.Leads c m' := by
  obtain ⟨events, hm⟩ := h
  obtain ⟨events', hm'⟩ := h' (s.play c events) hm
  exact ⟨events ++ events', by rw [play_append, hm']⟩

theorem leads_change (c : Collaborators σ) (s : Session σ α) (k : Change) :
    s.Leads c ((s.machine.modifyCore fun core => (core.change k).1).notify c
      (s.machine.world.core.change k).2) := ⟨[.changed k], rfl⟩

theorem leads_spawn (c : Collaborators σ) (s : Session σ α) (cancelled : Bool) (p : Prog α) :
    s.Leads c (s.machine.spawn cancelled p).1 := by
  refine ⟨[.spawned cancelled p], ?_⟩
  simp [play, step, spawn, machine, Machine.spawn]

theorem machine_cancel (s : Session σ α) (id : Nat) :
    (s.cancel id).machine = s.machine.cancel id := by
  simp only [cancel, machine, Machine.cancel, List.map_map]
  congr 1
  refine List.map_congr_left fun t _ => ?_
  simp only [Function.comp_apply]
  split <;> rfl

theorem leads_cancel (c : Collaborators σ) (s : Session σ α) (id : Nat) :
    s.Leads c (s.machine.cancel id) := ⟨[.cancelled id], s.machine_cancel id⟩

theorem machine_dropped (c : Collaborators σ) (s : Session σ α) (id : Nat) :
    (s.step c (.dropped id)).machine = s.machine.remove id := by
  simp only [step, machine, Machine.remove, List.filter_map]
  rfl

theorem leads_remove (c : Collaborators σ) (s : Session σ α) (id : Nat) :
    s.Leads c (s.machine.remove id) := ⟨[.dropped id], s.machine_dropped c id⟩

theorem leads_setClock (c : Collaborators σ) (s : Session σ α) (now : Nat) :
    s.Leads c (s.machine.setClock now) := ⟨[.clock now], rfl⟩

theorem leads_turn (c : Collaborators σ) (s : Session σ α) (place : Nat) (turn : Turn) :
    s.Leads c (s.machine.turn c place turn) := by
  cases turn with
  | own => exact ⟨[.polled place], s.machine_turn c place .own⟩
  | release server => exact ⟨[.released place server], s.machine_turn c place (.release server)⟩

theorem leads_turns (c : Collaborators σ) (turns : List (Nat × Turn)) (s : Session σ α) :
    s.Leads c (s.machine.turns c turns) := by
  induction turns generalizing s with
  | nil => exact ⟨[], rfl⟩
  | cons t turns ih =>
    refine (s.leads_turn c t.1 t.2).trans fun s' hs' => ?_
    rw [Machine.turns, List.foldl_cons, ← Machine.turns, ← hs']
    exact ih s'

/-- A round lets the listeners and then every request go on. -/
theorem leads_round (c : Collaborators σ) (s : Session σ α) : s.Leads c (s.machine.round c) := by
  have listened : s.Leads c { s.machine with world := s.world.pollListeners } := ⟨[.listened], rfl⟩
  refine listened.trans fun s' hs' => ?_
  have polled := s'.leads_turns c ((List.range s.machine.tasks.length).map (·, .own))
  rwa [hs'] at polled

theorem leads_rounds (c : Collaborators σ) (n : Nat) (s : Session σ α) :
    s.Leads c (s.machine.rounds c n) := by
  induction n generalizing s with
  | zero => exact ⟨[], rfl⟩
  | succ n ih =>
    refine (s.leads_round c).trans fun s' hs' => ?_
    rw [Machine.rounds, ← hs']
    exact ih s'

theorem leads_rest (c : Collaborators σ) (s : Session σ α) : s.Leads c (s.machine.rest c) :=
  leads_rounds c _ s

theorem leads_restAll (c : Collaborators σ) (fuel : Nat) (s : Session σ α) :
    s.Leads c (s.machine.restAll c fuel) := by
  induction fuel generalizing s with
  | zero => exact s.leads_rest c
  | succ fuel ih =>
    refine (s.leads_rest c).trans fun s' hs' => ?_
    rw [Machine.restAll, ← hs']
    split
    · exact ⟨[], rfl⟩
    · refine (s'.leads_turns c s'.machine.departures).trans fun s'' hs'' => ?_
      rw [← hs'']
      exact ih s''

theorem leads_settle (c : Collaborators σ) (s : Session σ α) : s.Leads c (s.machine.settle c) :=
  leads_restAll c _ s

theorem leads_setClock_settle (c : Collaborators σ) (s : Session σ α) (now : Nat) :
    s.Leads c ((s.machine.setClock now).settle c) := by
  refine (s.leads_setClock c now).trans fun s' hs' => ?_
  rw [← hs']
  exact s'.leads_settle c

theorem leads_advanceTo (c : Collaborators σ) (target fuel : Nat) (s : Session σ α) :
    s.Leads c (s.machine.advanceTo c target fuel) := by
  induction fuel generalizing s with
  | zero => exact s.leads_setClock_settle c target
  | succ fuel ih =>
    refine (s.leads_settle c).trans fun s' hs' => ?_
    rw [Machine.advanceTo, ← hs']
    split
    · next t _ =>
      split
      · refine (s'.leads_setClock c t).trans fun s'' hs'' => ?_
        rw [← hs'']
        exact ih s''
      · exact s'.leads_setClock_settle c target
    · exact s'.leads_setClock_settle c target

/-- Waiting for a request is one of the orders in which a session can go on. -/
theorem leads_await (c : Collaborators σ) (id fuel : Nat) (s : Session σ α) :
    s.Leads c (s.machine.await c id fuel).1 := by
  induction fuel generalizing s with
  | zero => exact ⟨[], rfl⟩
  | succ fuel ih =>
    refine (s.leads_settle c).trans fun s' hs' => ?_
    rw [Machine.await, ← hs']
    split
    · exact s'.leads_remove c id
    · split
      · next t _ =>
        refine (s'.leads_setClock c t).trans fun s'' hs'' => ?_
        rw [← hs'']
        exact ih s''
      · exact ⟨[], rfl⟩

/-- What a machine can come to: somebody changes its router, begins, cancels or drops requests, and
lets it settle, lets time pass, or waits for a request, again and again. -/
inductive Driven (c : Collaborators σ) : Machine σ α → Prop where
  | new (outside : σ) : Driven c (.new Core.new outside)
  | changed {m : Machine σ α} (h : Driven c m) (k : Change) :
    Driven c ((m.modifyCore fun core => (core.change k).1).notify c (m.world.core.change k).2)
  | spawned {m : Machine σ α} (h : Driven c m) (cancelled : Bool) (p : Prog α) :
    Driven c (m.spawn cancelled p).1
  | cancelled {m : Machine σ α} (h : Driven c m) (id : Nat) : Driven c (m.cancel id)
  | removed {m : Machine σ α} (h : Driven c m) (id : Nat) : Driven c (m.remove id)
  | settled {m : Machine σ α} (h : Driven c m) : Driven c (m.settle c)
  | advanced {m : Machine σ α} (h : Driven c m) (target fuel : Nat) :
    Driven c (m.advanceTo c target fuel)
  | awaited {m : Machine σ α} (h : Driven c m) (id fuel : Nat) : Driven c (m.await c id fuel).1

/-- Every machine is a reachable session without its records. -/
theorem exists_reachable_of_driven {c : Collaborators σ} {m : Machine σ α} (h : Driven c m) :
    ∃ s : Session σ α, s.Reachable c ∧ s.machine = m := by
  have led {s : Session σ α} {m : Machine σ α} (reachable : s.Reachable c) (leads : s.Leads c m) :
      ∃ s : Session σ α, s.Reachable c ∧ s.machine = m := by
    obtain ⟨events, there⟩ := leads
    exact ⟨s.play c events, reachable.play events, there⟩
  induction h with
  | new outside => exact ⟨.new outside, .new outside, rfl⟩
  | changed _ k ih =>
    obtain ⟨s, reachable, rfl⟩ := ih
    exact led reachable (s.leads_change c k)
  | spawned _ cancelled p ih =>
    obtain ⟨s, reachable, rfl⟩ := ih
    exact led reachable (s.leads_spawn c cancelled p)
  | cancelled _ id ih =>
    obtain ⟨s, reachable, rfl⟩ := ih
    exact led reachable (s.leads_cancel c id)
  | removed _ id ih =>
    obtain ⟨s, reachable, rfl⟩ := ih
    exact led reachable (s.leads_remove c id)
  | settled _ ih =>
    obtain ⟨s, reachable, rfl⟩ := ih
    exact led reachable (s.leads_settle c)
  | advanced _ target fuel ih =>
    obtain ⟨s, reachable, rfl⟩ := ih
    exact led reachable (s.leads_advanceTo c target fuel)
  | awaited _ id fuel ih =>
    obtain ⟨s, reachable, rfl⟩ := ih
    exact led reachable (s.leads_await c id fuel)

end Session

end PolyglotLsp
