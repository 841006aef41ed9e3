import PolyglotLsp.Proofs.Document.Versions
import PolyglotLsp.Proofs.Server.Registry
import PolyglotLsp.Proofs.Session.Basic

/-!
# Calls about documents

The editor opens, edits and closes host documents, and the compiler regenerates virtual ones, one
call after the other. Calls change documents only (`fixed_change`), so that servers and settings
stay what they were, and all that others see of a call is what it tells servers (`call_eq`). A
server reads a notification as a message about a document of some name (`DocumentMessage.read?`):
the text of a virtual document, or its end (`message?_textNotice`, `message?_closeNotice`). By one
call it gets the messages of the call's notices, each once or not at all (`messages_eq`), and nobody
speaks under a name but the hosts that have a virtual document of that name
(`exists_of_mem_messages`).
-/

namespace PolyglotLsp

/-- What the editor and the compiler do about documents. -/
inductive DocumentCall where
  | opened (d : OpenedDocument)
  | edited (d : ChangedDocument)
  | closed (uri : Uri)
  | regenerated (r : Regeneration)

namespace DocumentCall

def change : DocumentCall → Change
  | .opened d => .opened d
  | .edited d => .edited d
  | .closed uri => .closed uri
  | .regenerated r => .regenerated r

/-- The host that a call is about, unless it names none. -/
def host? : DocumentCall → Option Url
  | .opened d => d.uri.toUrl?
  | .edited d => d.uri.toUrl?
  | .closed uri => uri.toUrl?
  | .regenerated r => some r.host

/-- Whether a call begins or ends an opening of a host. -/
def interrupts (host : Url) : DocumentCall → Bool
  | .opened d => d.uri.toUrl? = some host
  | .closed uri => uri.toUrl? = some host
  | .edited _ | .regenerated _ => false

/-- What calls, the latest first, do to a store. -/
def history (ks : List DocumentCall) : List Store.Event := ks.flatMap (·.change.edits)

theorem host_of_mem_edits {k : DocumentCall} {e : Store.Event} (h : e ∈ k.change.edits) :
    k.host? = some e.host := by
  cases k with
  | opened d | edited d =>
    obtain ⟨url, hu, rfl⟩ := List.mem_map.1 h
    exact Option.mem_toList.1 hu
  | closed uri =>
    obtain ⟨url, hu, rfl⟩ := List.mem_map.1 h
    exact Option.mem_toList.1 hu
  | regenerated r =>
    rw [List.mem_singleton.1 h]
    rfl

end DocumentCall

/-! ## What a call changes -/

/-- Servers and settings stay. -/
theorem Core.fixed_change (core : Core) (k : DocumentCall) :
    (core.change k.change).1.registry = core.registry ∧
      (core.change k.change).1.settings = core.settings := by
  rw [core.change_of_documents (k := k.change) (by cases k <;> rfl)]
  exact ⟨rfl, rfl⟩

/-- What the servers of a notice get to see. -/
def Notice.deliveries (r : Registry) (n : Notice) : List Traffic :=
  (r.serversFor n.contentTypes).map fun s => .notify s.name n.method n.params

namespace World

variable {σ : Type} (c : Collaborators σ)

/-- Every server of a notice gets it, whoever fails to take it. -/
theorem notify_fst (w : World σ) (n : Notice) :
    (w.notify c n).1 = { w with traffic := w.traffic ++ n.deliveries w.core.registry } := by
  have recorded (servers : List Server) (w : World σ) :
      servers.foldl (fun w s => w.record (.notify s.name n.method n.params)) w =
        { w with traffic := w.traffic ++
            servers.map fun s => .notify s.name n.method n.params } := by
    induction servers generalizing w with
    | nil => simp
    | cons s servers ih =>
      rw [List.foldl_cons, ih]
      simp [record]
  exact recorded _ w

theorem notify_eq (w : World σ) (notices : List Notice) :
    Session.notify c w notices =
      { w with traffic := w.traffic ++ notices.flatMap (·.deliveries w.core.registry) } := by
  unfold Session.notify
  induction notices generalizing w with
  | nil => simp
  | cons n notices ih =>
    rw [List.foldl_cons, ih, notify_fst]
    simp

/-- The world after a call, all of whose notices have been passed on. It is that of a session after
the change (`Session.change`). -/
def call (w : World σ) (k : DocumentCall) : World σ :=
  Session.notify c { w with core := (w.core.change k.change).1 } (w.core.change k.change).2

/-- The world after several calls, the latest first. -/
def afterCalls (w : World σ) : List DocumentCall → World σ
  | [] => w
  | k :: earlier => (afterCalls w earlier).call c k

theorem call_eq (w : World σ) (k : DocumentCall) :
    w.call c k =
      { w with
        core := (w.core.change k.change).1
        traffic := w.traffic ++
          (w.core.change k.change).2.flatMap (·.deliveries w.core.registry) } := by
  rw [call, notify_eq, (w.core.fixed_change k).1]

theorem fixed_afterCalls (w : World σ) (ks : List DocumentCall) :
    (w.afterCalls c ks).core.registry = w.core.registry ∧
      (w.afterCalls c ks).core.settings = w.core.settings := by
  induction ks with
  | nil => exact ⟨rfl, rfl⟩
  | cons k earlier ih =>
    obtain ⟨registry, settings⟩ := (w.afterCalls c earlier).core.fixed_change k
    simp only [afterCalls, call_eq]
    exact ⟨registry.trans ih.1, settings.trans ih.2⟩

theorem store_afterCalls {w : World σ} (h : w.core.store = .empty) (ks : List DocumentCall) :
    (w.afterCalls c ks).core.store = Store.after (DocumentCall.history ks) := by
  induction ks with
  | nil => exact h
  | cons k earlier ih =>
    simp only [afterCalls, call_eq]
    exact Core.store_change ih k.change

end World

/-! ## What servers read -/

/-- What a notification says about a document. -/
inductive DocumentMessage where
  | opened (languageId : String) (version : Int) (text : String)
  | changed (version : Int) (text : String)
  | closed
  | unreadable
  deriving DecidableEq, Repr

namespace DocumentMessage

/-- Reads a notification about the document of a name. A change has to give the whole text. -/
def read? (uri method : String) (params : Json) : Option DocumentMessage :=
  let document := params.get "textDocument"
  if (document.get "uri").asString? = some uri then
    if method = "textDocument/didOpen" then
      match document.get "languageId", document.get "version", document.get "text" with
      | .str languageId, .int version, .str text => some (.opened languageId version text)
      | _, _, _ => some .unreadable
    else if method = "textDocument/didChange" then
      match document.get "version", params.get "contentChanges" with
      | .int version, .arr [change] =>
        match change.get "range", change.get "text" with
        | .null, .str text => some (.changed version text)
        | _, _ => some .unreadable
      | _, _ => some .unreadable
    else if method = "textDocument/didClose" then some .closed
    else none
  else none

/-- The message that carries a document. -/
def ofDocument (d : VirtualSnapshot) : DocumentMessage :=
  if d.version = 1 then .opened d.language.id d.version d.text else .changed d.version d.text

end DocumentMessage

/-- What a server reads in a notice, if it is one of those that the notice is for. -/
def Notice.message? (server : Server) (uri : String) (n : Notice) : Option DocumentMessage :=
  if n.contentTypes.any server.serves then DocumentMessage.read? uri n.method n.params else none

/-- What the server of a name reads in what it sees of the router. -/
def Traffic.message? (server uri : String) : Traffic → Option DocumentMessage
  | .notify name method params =>
    if name = server then DocumentMessage.read? uri method params else none
  | _ => none

theorem DocumentMessage.read?_of_ne {uri method : String} {params : Json}
    (h : ((params.get "textDocument").get "uri").asString? ≠ some uri) :
    read? uri method params = none := if_neg h

/-- A notice about a virtual document gives its text, under its name. -/
theorem Core.message?_textNotice (core : Core) (d : VirtualSnapshot) (server : Server)
    (uri : String) :
    (core.textNotice d).message? server uri =
      if (core.settings.contentTypes d.language).any server.serves ∧ d.url.text = uri then
        some (.ofDocument d)
      else none := by
  have audience : (core.textNotice d).contentTypes = core.settings.contentTypes d.language := by
    unfold textNotice
    split <;> rfl
  have name : (((core.textNotice d).params.get "textDocument").get "uri").asString? =
      some d.url.text := by
    unfold textNotice
    split <;> simp [Json.get, Json.asString?, Url.toJson]
  rw [Notice.message?, audience]
  by_cases named : d.url.text = uri
  · subst named
    simp only [and_true]
    congr 1
    rw [textNotice, DocumentMessage.ofDocument]
    split <;> simp [DocumentMessage.read?, Json.get, Json.asString?, Url.toJson, List.lookup_cons]
  · have other : DocumentMessage.read? uri (core.textNotice d).method (core.textNotice d).params =
        none := DocumentMessage.read?_of_ne (by simpa [name] using named)
    simp [other, named]

theorem Core.message?_closeNotice (core : Core) (d : VirtualSnapshot) (server : Server)
    (uri : String) :
    (core.closeNotice d).message? server uri =
      if (core.settings.contentTypes d.language).any server.serves ∧ d.url.text = uri then
        some .closed
      else none := by
  by_cases named : d.url.text = uri
  · simp [closeNotice, Notice.message?, DocumentMessage.read?, Json.get, Url.toJson,
      Json.asString?, named]
  · simp [closeNotice, Notice.message?, DocumentMessage.read?, Json.get, Url.toJson,
      Json.asString?, named]

namespace World

variable {σ : Type} (c : Collaborators σ)

/-- What a server reads under a name in what it gets by a call. -/
def messages (w : World σ) (k : DocumentCall) (server uri : String) : List DocumentMessage :=
  ((w.call c k).traffic.drop w.traffic.length).filterMap (Traffic.message? server uri)

theorem messages_eq {w : World σ} (one : w.core.registry.OneEach) {server : Server}
    (registered : w.core.registry.get? server.name = some server) (k : DocumentCall)
    (uri : String) :
    w.messages c k server.name uri =
      (w.core.change k.change).2.filterMap (Notice.message? server uri) := by
  have delivered (n : Notice) : (n.deliveries w.core.registry).filterMap
      (Traffic.message? server.name uri) = (n.message? server uri).toList := by
    have found := one.filterMap_serversFor registered n.contentTypes
      (DocumentMessage.read? uri n.method n.params)
    rw [Notice.deliveries, List.filterMap_map]
    refine found.trans ?_
    unfold Notice.message?
    split <;> rfl
  rw [messages, call_eq, List.drop_left, List.filterMap_flatMap]
  simp only [delivered]
  exact (List.filterMap_eq_flatMap_toList _ _).symm

end World

/-! ## Who speaks under a name -/

namespace Store

/-- The document that a regeneration gives out, if it is neither ignored nor rejected. -/
def accepted? (s : Store) (r : Regeneration) : Option VirtualSnapshot :=
  match s.regenerate r with
  | .ok (_, d) => d
  | .error _ => none

theorem uri_of_accepted? {past : List Event} {r : Regeneration} {d : VirtualSnapshot}
    (h : (after past).accepted? r = some d) :
    d.uri.host = r.host ∧ d.uri.language = r.language := by
  unfold accepted? at h
  split at h
  · next hs =>
    subst h
    obtain ⟨o, d₀, text, ho, found, rfl, -⟩ := regenerate_some hs
    obtain ⟨mem, language⟩ := Opening.mem_of_virtual? found
    have host : d₀.host = r.host :=
      ((accounts past).current (Table.mem_of_get? ho)).host_of_mem mem
    exact ⟨host, language⟩
  · cases h

theorem generations_regenerated (host : Url) (language : Language) (r : Regeneration)
    (past : List Event) :
    generations host language (.regenerated r :: past) =
      if r.host = host ∧ r.language = language then
        ((after past).accepted? r).toList.map (⟨r, ·⟩) ++ generations host language past
      else generations host language past := by
  simp only [generations, accepted?]
  cases (after past).regenerate r with
  | error e => simp
  | ok result =>
    obtain ⟨s, _ | d⟩ := result
    · simp
    · simp

end Store

namespace Core

theorem notices_regenerated (core : Core) (r : Regeneration) :
    (core.change (.regenerated r)).2 = (core.store.accepted? r).toList.map core.textNotice := by
  simp only [change, regenerate, Store.accepted?]
  cases core.store.regenerate r with
  | error e => rfl
  | ok result =>
    obtain ⟨s, _ | d⟩ := result
    · rfl
    · rfl

theorem notices_closed {core : Core} {uri : Uri} {n : Notice}
    (h : n ∈ (core.change (.closed uri)).2) :
    ∃ url o d, uri.toUrl? = some url ∧ core.store.documents.get? url = some o ∧ d ∈ o.virtuals ∧
      n = core.closeNotice d := by
  simp only [change, closeDocument] at h
  split at h
  · cases h
  · next url hu =>
    split at h
    · cases h
    · next snapshot hs =>
      obtain ⟨o, ho, rfl⟩ := Option.map_eq_some_iff.1 hs
      obtain ⟨d, hd, rfl⟩ := List.mem_map.1 h
      exact ⟨url, o, d, hu, ho, (List.mem_filter.1 hd).1, rfl⟩

end Core

/-- A call says something under a name only if its host has a virtual document of that name, and
says it to the servers of the document's language. -/
theorem World.exists_of_mem_messages {σ : Type} (c : Collaborators σ) {w : World σ}
    {past : List Store.Event} (sound : w.core.store = Store.after past)
    (one : w.core.registry.OneEach) {server : Server}
    (registered : w.core.registry.get? server.name = some server) {k : DocumentCall} {uri : String}
    {m : DocumentMessage} (h : m ∈ w.messages c k server.name uri) :
    ∃ v : VirtualUri, k.host? = some v.host ∧ v.url.text = uri ∧
      (w.core.settings.contentTypes v.language).any server.serves = true := by
  rw [messages_eq c one registered] at h
  obtain ⟨n, hn, hm⟩ := List.mem_filterMap.1 h
  cases k with
  | opened d | edited d => cases hn
  | closed name =>
    obtain ⟨url, o, d, hu, ho, hd, rfl⟩ := Core.notices_closed hn
    rw [sound] at ho
    have host := ((Store.accounts past).current (Table.mem_of_get? ho)).host_of_mem hd
    rw [Core.message?_closeNotice] at hm
    split at hm
    · next about => exact ⟨d.uri, hu.trans (congrArg some host.symm), about.2, about.1⟩
    · cases hm
  | regenerated r =>
    rw [DocumentCall.change, Core.notices_regenerated, sound] at hn
    obtain ⟨d, hd, rfl⟩ := List.mem_map.1 hn
    have host := (Store.uri_of_accepted? (Option.mem_toList.1 hd)).1
    rw [Core.message?_textNotice] at hm
    split at hm
    · next about => exact ⟨d.uri, congrArg some host.symm, about.2, about.1⟩
    · cases hm

end PolyglotLsp
