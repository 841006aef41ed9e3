import PolyglotLsp.Router.World

/-!
# Requests side by side

Several requests can be under way at once. Each is a task: a program that has run up to an operation
that waits. A task is polled whenever something may have changed; polling one that still has to wait
changes nothing but what is taken in from servers. The tasks that it has spawned for servers have
their turns once all requests have come to rest. Time stands still while any task can go on and then
jumps to the next moment at which something is due.

This is one way of taking turns, in which nothing is left to chance. What requests do when turns
come in any order whatsoever is a matter of sessions, which include all that a machine does.
-/

namespace PolyglotLsp

/-- How far a program has come. -/
inductive TaskState (α : Type) where
  | ready (program : Prog α)
  | blocked (o : Op) (pending : o.Pending) (next : o.Result → Prog α)
  | finished (value : α)

/-- A request under way. -/
structure Task (α : Type) where
  id : Nat
  cancelled : Bool
  state : TaskState α

namespace TaskState

variable {α : Type}

def result? : TaskState α → Option α
  | .finished a => some a
  | _ => none

/-- The names of the servers that a task has yet to ask. -/
def grounded : TaskState α → List String
  | .blocked o pending _ => (World.grounded o pending).map (·.name)
  | _ => []

/-- The moments at which a task may go on by itself. -/
def moments : TaskState α → List Nat
  | .blocked o pending _ => World.moments o pending
  | _ => []

end TaskState

namespace World

variable {σ α : Type}

/-- Runs a program up to its end or the first operation that waits. -/
def run (c : Collaborators σ) (cancelled : Bool) : Prog α → World σ → World σ × TaskState α
  | .done a, w => (w, .finished a)
  | .op o next, w =>
    match w.start c cancelled o with
    | (w, .answered r) => run c cancelled (next r) w
    | (w, .waiting pending) => (w, .blocked o pending next)

/-- A turn of a task, which goes on as far as it can, or of one that it has spawned. -/
def poll (c : Collaborators σ) (w : World σ) (cancelled : Bool) (turn : Turn) :
    TaskState α → World σ × TaskState α
  | .ready p =>
    match turn with
    | .own => run c cancelled p w
    | .release _ => (w, .ready p)
  | .blocked o pending next =>
    match w.turn c cancelled o pending turn with
    | (w, .answered r) => run c cancelled (next r) w
    | (w, .waiting pending) => (w, .blocked o pending next)
  | .finished a => (w, .finished a)

/-- The listeners that a request has registered between two worlds, each with the request. -/
def listenersUpTo (w w' : World σ) (request : Nat) : List (Nat × Nat) :=
  (List.range' w.core.progress.nextId
    (w'.core.progress.nextId - w.core.progress.nextId)).map (·, request)

/-- Cancels listeners. -/
def cancelListeners (w : World σ) (ids : List Nat) : World σ :=
  { w with core := { w.core with progress := ids.foldl Progress.cancel w.core.progress } }

/-- Lets all listeners hand over what has arrived. -/
def pollListeners (w : World σ) : World σ :=
  { w with core := { w.core with progress := w.core.progress.pollAll w.now } }

end World

/-- The listeners of a request. -/
def listenersOf (listening : List (Nat × Nat)) (request : Nat) : List Nat :=
  (listening.filter (·.2 = request)).map (·.1)

/-- A router with the requests under way, in the order of their starts, and all listeners that
requests have registered, each with its request. -/
structure Machine (σ α : Type) where
  world : World σ
  tasks : List (Task α)
  nextId : Nat
  listening : List (Nat × Nat)

namespace Machine

variable {σ α : Type}

def new (core : Core) (outside : σ) : Machine σ α := ⟨⟨core, outside, 0, []⟩, [], 0, []⟩

/-- Starts a task without running it yet. -/
def spawn (m : Machine σ α) (cancelled : Bool) (p : Prog α) : Machine σ α × Nat :=
  ({ m with tasks := m.tasks ++ [⟨m.nextId, cancelled, .ready p⟩], nextId := m.nextId + 1 },
    m.nextId)

/-- Cancels a task and the listeners that it has registered. -/
def cancel (m : Machine σ α) (id : Nat) : Machine σ α :=
  { m with
    world := m.world.cancelListeners (listenersOf m.listening id)
    tasks := m.tasks.map fun t => if t.id = id then { t with cancelled := true } else t }

def result? (m : Machine σ α) (id : Nat) : Option α :=
  (m.tasks.find? (·.id = id)).bind (·.state.result?)

/-- Takes a task out. -/
def remove (m : Machine σ α) (id : Nat) : Machine σ α :=
  { m with tasks := m.tasks.filter (·.id ≠ id) }

/-- Changes the router's state from outside. -/
def modifyCore (m : Machine σ α) (f : Core → Core) : Machine σ α :=
  { m with world := { m.world with core := f m.world.core } }

/-- Passes notifications on. Nobody waits for a notification, so that failures end here. -/
def notify (c : Collaborators σ) (m : Machine σ α) (notices : List Notice) : Machine σ α :=
  { m with world := notices.foldl (fun w n => (w.notify c n).1) m.world }

/-- A turn of the task at a place, or of one that it has spawned for a server. -/
def turn (c : Collaborators σ) (m : Machine σ α) (place : Nat) (turn : Turn) : Machine σ α :=
  match m.tasks[place]? with
  | none => m
  | some t =>
    let (world, state) := m.world.poll c t.cancelled turn t.state
    { m with
      world
      tasks := m.tasks.set place { t with state }
      listening := m.listening ++ m.world.listenersUpTo world t.id }

/-- Turns of several tasks, one after the other. -/
def turns (c : Collaborators σ) (m : Machine σ α) (turns : List (Nat × Turn)) : Machine σ α :=
  turns.foldl (fun m t => m.turn c t.1 t.2) m

/-- Lets every listener and every task go on once. -/
def round (c : Collaborators σ) (m : Machine σ α) : Machine σ α :=
  turns c { m with world := m.world.pollListeners } ((List.range m.tasks.length).map (·, .own))

/-- The turns of all tasks that have been spawned for servers and have not had one. -/
def departures (m : Machine σ α) : List (Nat × Turn) :=
  m.tasks.zipIdx.flatMap fun (t, place) =>
    t.state.grounded.map fun server => (place, .release server)

/-- Repeats rounds. -/
def rounds (c : Collaborators σ) : Nat → Machine σ α → Machine σ α
  | 0, m => m
  | n + 1, m => rounds c n (m.round c)

/-- Lets every listener and every task go on until they come to rest. A task that goes on can make
others go on only by asking for a newer version of a document, at most once per embedded language,
or by what it sends to listeners. -/
def rest (c : Collaborators σ) (m : Machine σ α) : Machine σ α :=
  m.rounds c (Language.embedded.length * m.tasks.length + 2)

/-- Comes to rest, lets the requests to servers go out, and comes to rest again, as long as there
are any, but no more than `fuel` times. -/
def restAll (c : Collaborators σ) : (fuel : Nat) → Machine σ α → Machine σ α
  | 0, m => m.rest c
  | fuel + 1, m =>
    let m := m.rest c
    if m.departures.isEmpty then m else restAll c fuel (m.turns c m.departures)

/-- Lets everything go on that can do so without time passing. No request asks servers nearly as
often as this allows without waiting for anything in between. -/
def settle (c : Collaborators σ) (m : Machine σ α) : Machine σ α := m.restAll c 1000

/-- The next moment at which something is due. -/
def nextMoment? (m : Machine σ α) : Option Nat :=
  ((m.tasks.flatMap (·.state.moments) ++ m.world.core.progress.deadlines).filter
    (m.world.now < ·)).min?

/-- Sets the clock. -/
def setClock (m : Machine σ α) (now : Nat) : Machine σ α :=
  { m with world := { m.world with now } }

/-- Lets time pass up to a moment, stopping at no more than `fuel` moments on the way. -/
def advanceTo (c : Collaborators σ) (target : Nat) : (fuel : Nat) → Machine σ α → Machine σ α
  | 0, m => (m.setClock target).settle c
  | fuel + 1, m =>
    let m := m.settle c
    match m.nextMoment? with
    | some t =>
      if t < target then advanceTo c target fuel (m.setClock t) else (m.setClock target).settle c
    | none => (m.setClock target).settle c

/-- Lets time pass until a task ends, stopping at no more than `fuel` moments on the way. -/
def await (c : Collaborators σ) (id : Nat) : (fuel : Nat) → Machine σ α → Machine σ α × Option α
  | 0, m => (m, none)
  | fuel + 1, m =>
    let m := m.settle c
    match m.result? id with
    | some a => (m.remove id, some a)
    | none =>
      match m.nextMoment? with
      | some t => await c id fuel (m.setClock t)
      | none => (m, none)

end Machine

end PolyglotLsp
