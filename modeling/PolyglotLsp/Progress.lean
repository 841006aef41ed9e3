import PolyglotLsp.Document.Table
import PolyglotLsp.Lsp.Basic

/-!
# Progress notifications

A request that lets a server stream partial results registers a token and listens for notifications
that carry it. A listener hands payloads over in the order of arrival, and ends when nothing arrives
for its idle time, when it is cancelled, or when all listeners are disposed of. What was accepted
before a listener ends still reaches it, unless it was disposed of.
-/

namespace PolyglotLsp

/-- How a listener ended. -/
inductive ProgressOutcome where
  | completed
  | cancelled
  | disposed
  deriving DecidableEq, Repr, Inhabited

/-- One registration with the payloads accepted and not yet handed over, the moment at which its
idle time is up, and the payloads handed over. -/
structure Listener where
  id : Nat
  token : Token
  idle : Nat
  cancelled : Bool
  queue : List Json
  timer : Option Nat
  handled : List Json
  outcome : Option ProgressOutcome
  deriving Inhabited

/-- The tokens being listened for and all listeners. -/
structure Progress where
  disposed : Bool
  nextId : Nat
  registered : Table Token Nat
  listeners : List Listener
  deriving Inhabited

namespace Listener

/-- Hands over what waits in the queue. -/
def drain (l : Listener) : Listener :=
  { l with handled := l.handled ++ l.queue, queue := [] }

/-- One turn of a listener at a moment: it may end, hand payloads over and so restart its idle time,
or find its idle time up. -/
def turn (l : Listener) (disposed : Bool) (now : Nat) : Listener :=
  if l.outcome.isSome then l
  else if disposed then { l with outcome := some .disposed }
  else if l.cancelled then { l.drain with outcome := some .cancelled }
  else
    let timer := if l.queue.isEmpty then l.timer.getD (now + l.idle) else now + l.idle
    if timer ≤ now then { l.drain with outcome := some .completed, timer := some timer }
    else { l.drain with timer := some timer }

end Listener

namespace Progress

/-- The method of progress notifications. -/
def method : String := "$/progress"

def empty : Progress := ⟨false, 1, [], []⟩

def isRegistered (p : Progress) (token : Token) : Bool := (p.registered.get? token).isSome

def listener? (p : Progress) (id : Nat) : Option Listener := p.listeners.find? (·.id = id)

/-- Changes the listener with this number. -/
def modify (p : Progress) (id : Nat) (f : Listener → Listener) : Progress :=
  { p with listeners := p.listeners.map fun l => if l.id = id then f l else l }

/-- Starts to listen for a token, unless somebody does already. -/
def register (p : Progress) (token : Token) (idle : Nat) : Progress × Option Nat :=
  if p.isRegistered token then ({ p with nextId := p.nextId + 1 }, none)
  else
    ({ p with
        nextId := p.nextId + 1
        registered := p.registered.set token p.nextId
        listeners := p.listeners ++ [⟨p.nextId, token, idle, false, [], none, [], none⟩] },
      some p.nextId)

/-- Offers a payload to whoever listens for a token; false if nobody does. -/
def deliver (p : Progress) (token : Token) (payload : Json) : Progress × Bool :=
  match p.registered.get? token with
  | none => (p, false)
  | some id => (p.modify id fun l => { l with queue := l.queue ++ [payload] }, true)

/-- Offers a notification of a server; anything but progress with a usable token is refused. -/
def deliverNotification (p : Progress) (name : String) (params : Json) : Progress × Bool :=
  if name ≠ method then (p, false)
  else
    match Token.ofJson? (params.get "token") with
    | none => (p, false)
    | some token => p.deliver token (params.get "value")

def cancel (p : Progress) (id : Nat) : Progress := p.modify id ({ · with cancelled := true })

/-- Disposes of all listeners, present and future. -/
def dispose (p : Progress) : Progress := { p with disposed := true }

/-- One turn of the listener with this number. One that ends is no longer registered. -/
def poll (p : Progress) (now : Nat) (id : Nat) : Progress :=
  match p.listener? id with
  | none => p
  | some l =>
    let l' := l.turn p.disposed now
    let p' := p.modify id fun _ => l'
    if l'.outcome.isSome && p.registered.get? l.token == some id then
      { p' with registered := p'.registered.erase l.token }
    else p'

/-- One turn of every listener. -/
def pollAll (p : Progress) (now : Nat) : Progress :=
  (p.listeners.map (·.id)).foldl (fun p id => p.poll now id) p

/-- The next moment at which some listener's idle time is up. -/
def deadlines (p : Progress) : List Nat :=
  p.listeners.filterMap fun l => if l.outcome.isSome then none else l.timer

end Progress

end PolyglotLsp
