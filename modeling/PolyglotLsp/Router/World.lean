import PolyglotLsp.Router.Core
import PolyglotLsp.Router.Prog

/-!
# What operations answer

A router among its collaborators at a moment of time. The collaborators are abstract: whatever they
answer, and however long they take, an operation is begun once, looked at again whenever something
may have changed, and answers at most once. Cancellation is looked at before everything else.

A request to several servers is a task for each of them. When an operation begins, its tasks are
only spawned; each sends its request when its own turn comes, in any order, before or after the
operation is looked at. Whatever has not gone out by the time the operation answers never does.
-/

namespace PolyglotLsp

/-- A value that is there after some time. -/
structure Timed (α : Type) where
  delay : Nat
  value : α

/-- A notification that a server sends while it works on a request, some time after the one
before. -/
structure ServerNote where
  delay : Nat
  method : String
  params : Json

/-- How a server's work on a request ends. -/
inductive ServerOutcome where
  | answer (value : Json)
  | fail (message : String)
  | hang
  | die

/-- All that a server does about a request. -/
structure ServerWork where
  notes : List ServerNote
  delay : Nat
  outcome : ServerOutcome

/-- The services and servers around a router, over their own state `σ`, which each question may
change. Without a document service there is no document context. -/
structure Collaborators (σ : Type) where
  classify : σ → Url → Position → σ × Timed (Except RouterError (Option Classification))
  mapRanges : σ → Language → Url → List Range →
    σ × Timed (Except RouterError (Option MappedRanges))
  remapEdits : σ → Language → Url → List TextEdit → Option FormattingOptions → Bool →
    σ × Timed (Except RouterError (Option RemappedEdits))
  documentContext : σ → Url → σ × Option (Timed (Except RouterError (Option DocumentContext)))
  request : σ → Nat → String → Json → σ × ServerWork
  /-- Why the server behind an endpoint fails to take a notification, if it does. -/
  noticeFailure? : σ → Nat → String → Json → Option String
  provider : σ → Markup.Provider

/-- What collaborators see of a router. -/
inductive Traffic where
  | classify (host : Url) (position : Position)
  | mapRanges (host : Url) (language : Language) (ranges : List Range)
  | remapEdits (host : Url) (language : Language) (edits : List TextEdit)
      (options : Option FormattingOptions) (snippet : Bool)
  | request (server method : String) (params : Json)
  | noteAccepted (server : String) (note : ServerNote) (accepted : Bool)
  | notify (server method : String) (params : Json)
  | documentContext (host : Url)

/-- A router, its collaborators' state, the time in milliseconds, and the traffic so far. -/
structure World (σ : Type) where
  core : Core
  outside : σ
  now : Nat
  traffic : List Traffic

/-- A request in flight at one server: when its notes are due and its work ends, and when the router
stops waiting. -/
structure Flight where
  server : String
  method : String
  notes : List (Nat × ServerNote)
  finish : Nat
  outcome : ServerOutcome
  deadline : Nat
  timeout : Nat

/-- A reply with its server and the moment from which on it is there. -/
structure Landing (α : Type) where
  moment : Nat
  server : String
  reply : Reply α

/-- A request to several servers: those whose task has not had its turn, the flights on which it
went out to others, and the replies that are in. Each flight may take as long as was allowed when
the tasks were spawned. -/
structure FanOut (α : Type) where
  grounded : List Server
  flights : List Flight
  replies : Replies α
  timeout : Nat

/-- Whose turn it is: that of a request itself, or that of the task which it has spawned for a
server. -/
inductive Turn where
  | own
  | release (server : String)

/-- A value that is there from some moment on. -/
structure Due (α : Type) where
  moment : Nat
  value : α

/-- What is kept about an operation that waits. Most operations never do. -/
abbrev Op.Pending : Op → Type
  | .classify .. => Due (Except RouterError (Option Classification))
  | .synchronize .. => SyncWait
  | .askFirst shape .. => FanOut shape.Val
  | .askAll shape .. => FanOut shape.Val
  | .ask shape .. => FanOut shape.Val
  | .mapRanges .. => Due (Except RouterError (Option MappedRanges))
  | .remapEdits .. => Due (Except RouterError (Option RemappedEdits))
  | .documentContext _ => Due (Except RouterError (Option DocumentContext))
  | _ => Empty

/-- An operation has answered, or it waits. -/
inductive Op.Progress (o : Op) where
  | answered (result : o.Result)
  | waiting (pending : o.Pending)

namespace World

variable {σ : Type}

def record (w : World σ) (t : Traffic) : World σ := { w with traffic := w.traffic ++ [t] }

/-- Sends a notification to its servers, by name, each whether or not the ones before took it. Gives
the servers that failed to take it, and why. -/
def notify (c : Collaborators σ) (w : World σ) (n : Notice) : World σ × List (String × String) :=
  let servers := w.core.registry.serversFor n.contentTypes
  (servers.foldl (fun w s => w.record (.notify s.name n.method n.params)) w,
    servers.filterMap fun s =>
      (c.noticeFailure? w.outside s.endpoint n.method n.params).map (s.name, ·))

/-- Waits for a timed value from now on. -/
def due {α : Type} (w : World σ) (t : Timed α) : Due α := ⟨w.now + t.delay, t.value⟩

/-- Takes in the notes of a flight that are due; gives those that are not. -/
def takeNotes (server : String) (w : World σ) : List (Nat × ServerNote) →
    World σ × List (Nat × ServerNote)
  | [] => (w, [])
  | (moment, note) :: rest =>
    if moment ≤ w.now then
      let (core, accepted) := w.core.serverNotification note.method note.params
      takeNotes server ({ w with core }.record (.noteAccepted server note accepted)) rest
    else (w, (moment, note) :: rest)

/-- The moments at which notes are due, the first after `start`. -/
def schedule (start : Nat) : List ServerNote → List (Nat × ServerNote)
  | [] => []
  | n :: rest => (start + n.delay, n) :: schedule (start + n.delay) rest

/-- Hands a request to a server. Notes that it sends at once are taken in before anybody else has a
turn. -/
def launch (c : Collaborators σ) (w : World σ) (s : Server) (method : String) (params : Json)
    (timeout : Nat) : World σ × Flight :=
  let (outside, work) := c.request w.outside s.endpoint method params
  let last := work.notes.foldl (fun moment n => moment + n.delay) w.now
  let w := { w with outside }.record (.request s.name method params)
  let (w, notes) := takeNotes s.name w (schedule w.now work.notes)
  (w, {
    server := s.name, method, notes, finish := last + work.delay
    outcome := work.outcome, deadline := w.now + timeout, timeout })

/-- The first turn of the task for a server: its request goes out. -/
def depart {α : Type} (c : Collaborators σ) (method : String) (params : Json) (w : World σ)
    (server : String) (f : FanOut α) : World σ × FanOut α :=
  match f.grounded.find? (·.name = server) with
  | none => (w, f)
  | some s =>
    let (w, flight) := w.launch c s method params f.timeout
    (w, { f with
      grounded := f.grounded.eraseP (·.name = server)
      flights := f.flights ++ [flight] })

/-- The reply of a flight whose notes are all in, if it has one by now, and since when. An answer at
the very moment at which the time is up still counts. -/
def landing (shape : Shape) (now : Nat) (f : Flight) (notesIn : Bool) :
    Option (Landing shape.Val) :=
  let ended (reply : Reply shape.Val) : Option (Landing shape.Val) :=
    some ⟨f.finish, f.server, reply⟩
  let late : Option (Landing shape.Val) :=
    if f.deadline ≤ now then
      some ⟨f.deadline, f.server, .failed (.timeout f.server f.method f.timeout)⟩
    else none
  if notesIn && f.finish ≤ now then
    match f.outcome with
    | .answer value => ended (shape.reply f.server f.method value)
    | .fail message => ended (.failed (.transport f.server f.method message))
    | .die => ended .died
    | .hang => late
  else late

/-- Looks at all flights in order: takes in notes, and replies that are there. -/
def fly (shape : Shape) (w : World σ) :
    List Flight → World σ × List Flight × List (Landing shape.Val)
  | [] => (w, [], [])
  | f :: rest =>
    let (w, notes) := takeNotes f.server w f.notes
    let f := { f with notes }
    match landing shape w.now f notes.isEmpty with
    | some landed =>
      let (w, flights, others) := fly shape w rest
      (w, flights, landed :: others)
    | none =>
      let (w, flights, others) := fly shape w rest
      (w, f :: flights, others)

/-- Landings in the order of their moments; of those at one moment, the flight that went out first
comes first. -/
def inOrder {α : Type} (landings : List (Landing α)) : Replies α :=
  (landings.mergeSort fun a b => decide (a.moment ≤ b.moment)).map fun l => (l.server, l.reply)

/-- Looks at a fan-out. -/
def flyAll (shape : Shape) (w : World σ) (f : FanOut shape.Val) : World σ × FanOut shape.Val :=
  let (w, flights, landings) := fly shape w f.flights
  (w, { f with flights, replies := f.replies ++ inOrder landings })

/-- Whether all servers have been asked and waited for. -/
def exhausted {α : Type} (f : FanOut α) : Bool := f.grounded.isEmpty && f.flights.isEmpty

/-- The verdict on a fan-out of which the first answer counts. -/
def firstVerdict {α : Type} (f : FanOut α) : Option (Except RouterError (Option (Tagged α))) :=
  if exhausted f || !f.replies.answers.isEmpty then some f.replies.first else none

/-- The verdict on a fan-out of which all answers count. -/
def allVerdict {α : Type} (f : FanOut α) : Option (Except RouterError (List (Tagged α))) :=
  if exhausted f then some f.replies.all else none

/-- Parameters that could not be written down. -/
def unencodable (method reason : String) : RouterError :=
  .internal ("failed to encode " ++ method ++ " params: " ++ reason)

/-- Looks at an operation that waits. -/
def resume (w : World σ) (cancelled : Bool) : (o : Op) → o.Pending → World σ × o.Progress
  | .classify .., d =>
    (w, if cancelled then .answered none
      else if d.moment ≤ w.now then .answered (some d.value) else .waiting d)
  | .mapRanges .., d =>
    (w, if cancelled then .answered none
      else if d.moment ≤ w.now then .answered (some d.value) else .waiting d)
  | .remapEdits .., d =>
    (w, if cancelled then .answered none
      else if d.moment ≤ w.now then .answered (some d.value) else .waiting d)
  | .documentContext _, d => (w, if d.moment ≤ w.now then .answered d.value else .waiting d)
  | .synchronize .., s =>
    (w, match w.core.synchronizer.verdict w.core.store w.now cancelled s with
      | .waiting => .waiting s
      | .synchronized d => .answered (some d)
      | .gaveUp => .answered none)
  | .askFirst shape .., f =>
    if cancelled then (w, .answered (.ok none))
    else
      let (w, f) := flyAll shape w f
      (w, match firstVerdict f with
        | some r => .answered r
        | none => .waiting f)
  | .askAll shape .., f =>
    if cancelled then (w, .answered (.ok []))
    else
      let (w, f) := flyAll shape w f
      (w, match allVerdict f with
        | some r => .answered r
        | none => .waiting f)
  | .ask shape .., f =>
    if cancelled then (w, .answered (.ok none))
    else
      let (w, f) := flyAll shape w f
      (w, match firstVerdict f with
        | some r => .answered (r.map fun t => t.map (·.value))
        | none => .waiting f)
  | .host _, e | .hostVersion _, e | .resolveVirtual _, e | .contentTypes _, e | .capabilities, e
  | .provider, e | .remember _, e | .recall _, e | .listen, e | .stopListening _, e => e.elim

/-- Lets the request to a server go out that an operation has spawned a task for. -/
def release (c : Collaborators σ) (w : World σ) (server : String) :
    (o : Op) → o.Pending → World σ × o.Pending
  | .askFirst _ method _ (.ok params), f | .askAll _ method _ (.ok params), f
  | .ask _ method _ (.ok params), f => w.depart c method params server f
  | _, pending => (w, pending)

/-- A turn of an operation that waits. -/
def turn (c : Collaborators σ) (w : World σ) (cancelled : Bool) (o : Op) (pending : o.Pending) :
    Turn → World σ × o.Progress
  | .own => w.resume cancelled o pending
  | .release server =>
    let (w, pending) := w.release c server o pending
    (w, .waiting pending)

/-- Begins an operation. -/
def start (c : Collaborators σ) (w : World σ) (cancelled : Bool) : (o : Op) → World σ × o.Progress
  | .host url => (w, .answered (w.core.store.get? url))
  | .hostVersion url => (w, .answered (w.core.store.hostVersion? url))
  | .resolveVirtual url => (w, .answered (w.core.store.resolve? url))
  | .contentTypes language => (w, .answered (w.core.settings.contentTypes language))
  | .capabilities => (w, .answered (w.core.capabilities.getD ⟨false, false⟩))
  | .provider => (w, .answered (c.provider w.outside))
  | .remember context =>
    let (cache, id) := w.core.cache.insert context
    ({ w with core := { w.core with cache } }, .answered id)
  | .recall id => (w, .answered (w.core.cache.get? id))
  | .listen =>
    let token := Token.text ("partial-results-" ++ toString w.core.progress.nextId)
    let (progress, id) := w.core.progress.register token w.core.settings.progressTimeout
    let progress := if cancelled then (id.map progress.cancel).getD progress else progress
    let progress := (id.map (progress.poll w.now)).getD progress
    ({ w with core := { w.core with progress } }, .answered (id.map fun id => (id, token)))
  | .stopListening id =>
    let progress := (w.core.progress.cancel id).poll w.now id
    ({ w with core := { w.core with progress } },
      .answered ((progress.listener? id).map (·.handled) |>.getD []))
  | .classify host position =>
    if cancelled then (w, .answered none)
    else
      let (outside, answer) := c.classify w.outside host position
      resume ({ w with outside }.record (.classify host position)) false
        (.classify host position) (w.due answer)
  | .mapRanges language host ranges =>
    if cancelled then (w, .answered none)
    else
      let (outside, answer) := c.mapRanges w.outside language host ranges
      resume ({ w with outside }.record (.mapRanges host language ranges)) false
        (.mapRanges language host ranges) (w.due answer)
  | .remapEdits language host edits options snippet =>
    if cancelled then (w, .answered none)
    else
      let (outside, answer) := c.remapEdits w.outside language host edits options snippet
      resume ({ w with outside }.record (.remapEdits host language edits options snippet)) false
        (.remapEdits language host edits options snippet) (w.due answer)
  | .documentContext host =>
    match c.documentContext w.outside host with
    | (outside, none) => ({ w with outside }, .answered (.ok none))
    | (outside, some answer) =>
      resume ({ w with outside }.record (.documentContext host)) cancelled (.documentContext host)
        (w.due answer)
  | .synchronize expected document =>
    let (synchronizer, outcome) :=
      w.core.synchronizer.begin w.core.store w.now expected document
    let w := { w with core := { w.core with synchronizer } }
    match outcome with
    | .inl d => (w, .answered d)
    | .inr wait => resume w cancelled (.synchronize expected document) wait
  | .askFirst _ method contentTypes params =>
    let servers := w.core.registry.serversFor contentTypes
    if servers.isEmpty then (w, .answered (.ok none))
    else
      match params with
      | .error reason => (w, .answered (.error (unencodable method reason)))
      | .ok _ => (w, .waiting ⟨servers, [], [], w.core.requestTimeout⟩)
  | .askAll _ method contentType params =>
    let servers := w.core.registry.serversFor [contentType]
    if servers.isEmpty then (w, .answered (.ok []))
    else
      match params with
      | .error reason => (w, .answered (.error (unencodable method reason)))
      | .ok _ => (w, .waiting ⟨servers, [], [], w.core.requestTimeout⟩)
  | .ask shape method server params =>
    match w.core.registry.get? server with
    | none => (w, .answered (.error (.serverNotFound server)))
    | some s =>
      match params with
      | .error reason => (w, .answered (.error (unencodable method reason)))
      | .ok json =>
        if cancelled then (w, .answered (.ok none))
        else
          let (w, flight) := w.launch c s method json w.core.requestTimeout
          resume w false (.ask shape method server (.ok json))
            ⟨[], [flight], [], w.core.requestTimeout⟩

/-- The servers for which an operation has spawned tasks that have not had their turn. -/
def grounded : (o : Op) → o.Pending → List Server
  | .askFirst .., f | .askAll .., f | .ask .., f => f.grounded
  | _, _ => []

/-- The moments at which a flight may change by itself. -/
def flightMoments (f : Flight) : List Nat :=
  f.deadline :: f.finish :: f.notes.map (·.1)

/-- The moments at which an operation that waits may change by itself. -/
def moments : (o : Op) → o.Pending → List Nat
  | .classify .., d => [d.moment]
  | .mapRanges .., d => [d.moment]
  | .remapEdits .., d => [d.moment]
  | .documentContext _, d => [d.moment]
  | .synchronize .., s => [s.deadline]
  | .askFirst .., f => f.flights.flatMap flightMoments
  | .askAll .., f => f.flights.flatMap flightMoments
  | .ask .., f => f.flights.flatMap flightMoments
  | .host _, e | .hostVersion _, e | .resolveVirtual _, e | .contentTypes _, e | .capabilities, e
  | .provider, e | .remember _, e | .recall _, e | .listen, e | .stopListening _, e => e.elim

end World

end PolyglotLsp
