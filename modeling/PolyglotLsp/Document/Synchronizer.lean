import PolyglotLsp.Document.Store

/-!
# Waiting for virtual documents

A request sees the host at some version and waits until the virtual document it is about reflects
that version. Waits for one virtual document share a record of the highest version asked for: as
soon as a newer version is asked for, or the record is forgotten, older waits give up, since their
answers would be about text the user has changed already. A wait also ends when it is cancelled,
when the opening it follows is closed, and when its time is up.
-/

namespace PolyglotLsp

/-- The highest host version asked for since the record with this number was begun. -/
structure RequestRecord where
  number : Nat
  latest : Int
  deriving DecidableEq, Repr

/-- Time allowed for a wait, whether newer requests end older waits, and the records by the name of
the virtual document. -/
structure Synchronizer where
  timeout : Nat
  rejects : Bool
  records : Table Url RequestRecord
  nextNumber : Nat
  deriving Repr

/-- A wait under way. -/
structure SyncWait where
  expected : Int
  opening : Nat
  language : Language
  url : Url
  record : Nat
  rejects : Bool
  deadline : Nat
  deriving DecidableEq, Repr

/-- How a wait stands. -/
inductive SyncVerdict where
  | waiting
  | synchronized (document : VirtualSnapshot)
  | gaveUp
  deriving DecidableEq, Repr

namespace Synchronizer

/-- The time allowed unless the settings say otherwise, in milliseconds. -/
def defaultTimeout : Nat := 2000

def new (timeout : Nat) : Synchronizer := ⟨timeout, true, [], 0⟩

/-- Records a request for a version of a virtual document; gives the number of its record. -/
def request (s : Synchronizer) (url : Url) (version : Int) : Synchronizer × Nat :=
  match s.records.get? url with
  | some r => ({ s with records := s.records.set url { r with latest := max r.latest version } }, r.number)
  | none =>
    ({ s with records := s.records.set url ⟨s.nextNumber, version⟩, nextNumber := s.nextNumber + 1 },
      s.nextNumber)

/-- Ends the records of a host's virtual documents. -/
def forget (s : Synchronizer) (host : Url) : Synchronizer :=
  { s with records := (Store.virtualUris host).foldl (fun t v => t.erase v.url) s.records }

/-- Whether a newer request, or the end of its record, makes a wait give up. -/
def supersedes (s : Synchronizer) (w : SyncWait) : Bool :=
  match s.records.get? w.url with
  | some r => r.number != w.record || decide (w.expected < r.latest)
  | none => true

/-- How a wait stands at a moment. Cancellation is looked at first, then newer requests, then the
document, then the time. -/
def verdict (s : Synchronizer) (store : Store) (now : Nat) (cancelled : Bool) (w : SyncWait) :
    SyncVerdict :=
  if cancelled then .gaveUp
  else if w.rejects && s.supersedes w then .gaveUp
  else
    match store.publication? w.opening w.language with
    | none => .gaveUp
    | some p =>
      if p.latest.isSynchronizedWith w.expected then .synchronized p.latest
      else if !p.live then .gaveUp
      else if w.deadline ≤ now then .gaveUp
      else .waiting

/-- Begins to wait for a document to reflect a host version. A document that does so already is
the answer itself, and one that is not open any more has none. -/
def begin (s : Synchronizer) (store : Store) (now : Nat) (expected : Int)
    (document : VirtualSnapshot) : Synchronizer × Sum (Option VirtualSnapshot) SyncWait :=
  if document.isSynchronizedWith expected then (s, .inl (some document))
  else
    match store.subscribe? document.host document.language with
    | none => (s, .inl none)
    | some opening =>
      let (s', record) := s.request document.url expected
      (s', .inr {
        expected, opening, language := document.language, url := document.url, record
        rejects := s.rejects, deadline := now + s.timeout })

end Synchronizer

end PolyglotLsp
