import PolyglotLsp.Proofs.Session.Mirror

/-!
# Openings and closings that servers are told of

A server should be told of a document in whole lifetimes: the document is opened, changed any number
of times, and closed (`Lifetimes`). What a server of some language reads about a virtual document is
given by the calls about the document's host (`speech`), and `Turn` says once what each call adds to
it. Reading message by message whether the document is open (`DocumentMessage.follow`) shows when a
message is out of place:

* a change or a closing never is (`founded_speech`): the router changes and closes only what it has
  opened;
* an opening is, exactly if the host had been opened anew while servers knew the document, so that
  its lifetime was never closed, and the document has been generated again since (`follow_speech`).
-/

namespace PolyglotLsp

/-! ## Lifetimes -/

/-- Whole lifetimes of a document, one after the other. -/
inductive Lifetimes : List DocumentMessage → Prop
  | none : Lifetimes []
  | next (languageId : String) (version : Int) (text : String) (changes : List (Int × String))
      {rest : List DocumentMessage} (h : Lifetimes rest) :
      Lifetimes (.opened languageId version text ::
        (changes.map fun change => .changed change.1 change.2) ++ .closed :: rest)

/-- The messages are the first part of whole lifetimes. -/
def Paired (ms : List DocumentMessage) : Prop := ∃ rest, Lifetimes (ms ++ rest)

namespace DocumentMessage

/-- Whether a document is open after a message; `none` if the message is out of place. -/
def follow : Bool → DocumentMessage → Option Bool
  | false, .opened .. => some true
  | true, .changed .. => some true
  | true, .closed => some false
  | _, _ => none

theorem foldlM_follow_changes (changes : List (Int × String)) :
    (changes.map fun change => changed change.1 change.2).foldlM follow true = some true := by
  induction changes with
  | nil => rfl
  | cons change changes ih => exact ih

theorem foldlM_follow_of_lifetimes {ms : List DocumentMessage} (h : Lifetimes ms) :
    ms.foldlM follow false = some false := by
  induction h with
  | none => rfl
  | next languageId version text changes _ ih =>
    rw [List.foldlM_append, List.foldlM_cons]
    simp only [follow, Option.bind_eq_bind, Option.bind_some, foldlM_follow_changes,
      List.foldlM_cons]
    exact ih

/-- A document that is open can be closed after some more changes; one that is not is at the end of
its lifetimes. -/
theorem exists_lifetimes (ms : List DocumentMessage) :
    ((ms.foldlM follow false).isSome → ∃ rest, Lifetimes (ms ++ rest)) ∧
      ((ms.foldlM follow true).isSome → ∃ (changes : List (Int × String)) (rest last : List DocumentMessage),
        Lifetimes last ∧
        ms ++ rest = (changes.map fun change => changed change.1 change.2) ++ .closed :: last) := by
  induction ms with
  | nil => exact ⟨fun _ => ⟨[], .none⟩, fun _ => ⟨[], [.closed], [], .none, rfl⟩⟩
  | cons m ms ih =>
    obtain ⟨closed, opened⟩ := ih
    constructor
    · intro fits
      cases m with
      | opened languageId version text =>
        obtain ⟨changes, rest, last, hl, he⟩ := opened fits
        refine ⟨rest, ?_⟩
        rw [List.cons_append, he]
        exact .next languageId version text changes hl
      | changed | closed | unreadable => cases fits
    · intro fits
      cases m with
      | changed version text =>
        obtain ⟨changes, rest, last, hl, he⟩ := opened fits
        exact ⟨(version, text) :: changes, rest, last, hl, by rw [List.cons_append, he]; rfl⟩
      | closed =>
        obtain ⟨rest, hl⟩ := closed fits
        exact ⟨[], rest, ms ++ rest, hl, rfl⟩
      | opened | unreadable => cases fits

theorem paired_iff_follow (ms : List DocumentMessage) :
    Paired ms ↔ (ms.foldlM follow false).isSome = true := by
  constructor
  · rintro ⟨rest, h⟩
    have all := foldlM_follow_of_lifetimes h
    rw [List.foldlM_append] at all
    obtain ⟨b, hb, -⟩ := Option.bind_eq_some_iff.1 all
    rw [hb]
    rfl
  · exact (exists_lifetimes ms).1

/-- The document has been opened and not been closed since. -/
def Opened (ms : List DocumentMessage) : Prop :=
  ∃ earlier languageId version text since,
    ms = earlier ++ .opened languageId version text :: since ∧ .closed ∉ since

/-- Whatever is not an opening finds the document open. -/
def Founded (ms : List DocumentMessage) : Prop :=
  ∀ before m after, ms = before ++ m :: after →
    (∃ languageId version text, m = .opened languageId version text) ∨ Opened before

theorem Opened.append {ms : List DocumentMessage} (h : Opened ms) {m : DocumentMessage}
    (hm : m ≠ .closed) : Opened (ms ++ [m]) := by
  obtain ⟨earlier, languageId, version, text, since, rfl, open_⟩ := h
  refine ⟨earlier, languageId, version, text, since ++ [m], by simp, ?_⟩
  simpa [open_] using hm.symm

theorem Founded.append {ms : List DocumentMessage} (h : Founded ms) {m : DocumentMessage}
    (hm : (∃ languageId version text, m = .opened languageId version text) ∨ Opened ms) :
    Founded (ms ++ [m]) := by
  intro before m' after split
  rcases List.eq_nil_or_concat after with rfl | ⟨after, last, rfl⟩
  · obtain ⟨rfl, same⟩ := List.append_inj' split rfl
    cases same
    exact hm
  · rw [List.concat_eq_append, ← List.cons_append, ← List.append_assoc] at split
    exact h before m' after (List.append_inj' split rfl).1

end DocumentMessage

/-! ## Documents that are left behind -/

/-- A host that is not open has had none of its documents generated. -/
theorem Store.generations_eq_nil {past : List Event} {host : Url}
    (closed : opening? host past = none) (language : Language) :
    generations host language past = [] := by
  induction past with
  | nil => rfl
  | cons e past ih =>
    cases e with
    | opened url version text =>
      simp only [opening?] at closed
      split at closed
      · cases closed
      · next other => simp [generations, other, ih closed]
    | closed url =>
      simp only [opening?] at closed
      split at closed
      · next same => simp [generations, same]
      · next other => simp [generations, other, ih closed]
    | edited url version changes => exact ih closed
    | regenerated r =>
      rw [generations_regenerated]
      split
      · next about =>
        -- nothing is accepted for a host that is not open
        have refused : (after past).accepted? r = none := by
          have nowhere : (after past).documents.get? r.host = none := by
            rw [about.1, ← Option.not_isSome_iff_eq_none, ← isSome_opening?]
            exact Option.not_isSome_iff_eq_none.2 closed
          simp [accepted?, regenerate, nowhere]
        rw [refused]
        exact ih closed
      · exact ih closed

namespace DocumentCall

def opens (host : Url) : DocumentCall → Bool
  | .opened d => d.uri.toUrl? = some host
  | .edited _ | .closed _ | .regenerated _ => false

/-- Whether a call gives a virtual document a new text. -/
def generates (host : Url) (language : Language) (earlier : List DocumentCall) :
    DocumentCall → Bool
  | .regenerated r => r.host = host && r.language = language &&
      ((Store.after (history earlier)).accepted? r).isSome
  | .opened _ | .edited _ | .closed _ => false

/-- A host was opened anew while servers knew its virtual document of some language. -/
def abandoned (host : Url) (language : Language) : List DocumentCall → Bool
  | [] => false
  | k :: earlier => abandoned host language earlier ||
      (k.opens host && !(Store.generations host language (history earlier)).isEmpty)

/-- A virtual document was given a text after it had been left behind. -/
def resumed (host : Url) (language : Language) : List DocumentCall → Bool
  | [] => false
  | k :: earlier => resumed host language earlier ||
      (abandoned host language earlier && k.generates host language earlier)

/-! ## What is said about a document -/

/-- What servers are told about a virtual document by a call about its host. -/
def said (v : VirtualUri) (earlier : List DocumentCall) : DocumentCall → List DocumentMessage
  | .closed _ =>
    if (Store.generations v.host v.language (history earlier)).isEmpty then [] else [.closed]
  | .regenerated r =>
    if r.language = v.language then
      ((Store.after (history earlier)).accepted? r).toList.map .ofDocument
    else []
  | .opened _ | .edited _ => []

/-- All that servers are told about a virtual document by calls, the latest first, about its
host. -/
def speech (v : VirtualUri) : List DocumentCall → List DocumentMessage
  | [] => []
  | k :: earlier => speech v earlier ++ if k.host? = some v.host then said v earlier k else []

/-- The document that a regeneration gives out is opened by its first text. -/
theorem ofDocument_of_accepted? {v : VirtualUri} {earlier : List DocumentCall} {r : Regeneration}
    (hh : r.host = v.host) (hl : r.language = v.language) {d : VirtualSnapshot}
    (hd : (Store.after (history earlier)).accepted? r = some d) :
    DocumentMessage.ofDocument d =
      if (Store.generations v.host v.language (history earlier)).isEmpty then
        .opened v.language.id 1 d.text
      else .changed d.version d.text := by
  have language : d.language = v.language := (Store.uri_of_accepted? hd).2.trans hl
  unfold Store.accepted? at hd
  split at hd
  · next s _ hs =>
    subst hd
    obtain ⟨o, d₀, text, ho, found, rfl, -⟩ := Store.regenerate_some hs
    have version : d₀.version =
        (Store.generations v.host v.language (history earlier)).length := by
      rw [← hh, ← hl]
      exact (Store.grown ho found).version_eq
    cases hg : Store.generations v.host v.language (history earlier) with
    | nil =>
      rw [hg] at version
      have first : d₀.version + 1 = 1 := by simp [version]
      simp only [DocumentMessage.ofDocument, first, ↓reduceIte, List.isEmpty_nil]
      rw [← language]
      rfl
    | cons g gs =>
      rw [hg, List.length_cons] at version
      have later : ¬ d₀.version + 1 = 1 := by omega
      simp [DocumentMessage.ofDocument, later]
  · cases hd

/-- What a call adds to the account of a virtual document. -/
inductive Turn (v : VirtualUri) (earlier : List DocumentCall) (k : DocumentCall) : Prop
  | idle (speech : speech v (k :: earlier) = speech v earlier)
      (generations : Store.generations v.host v.language (history (k :: earlier)) =
        Store.generations v.host v.language (history earlier))
      (abandoned : abandoned v.host v.language (k :: earlier) =
        abandoned v.host v.language earlier)
      (resumed : resumed v.host v.language (k :: earlier) = resumed v.host v.language earlier)
  | opened (speech : speech v (k :: earlier) = speech v earlier)
      (generations : Store.generations v.host v.language (history (k :: earlier)) = [])
      (abandoned : abandoned v.host v.language (k :: earlier) =
        (abandoned v.host v.language earlier ||
          !(Store.generations v.host v.language (history earlier)).isEmpty))
      (resumed : resumed v.host v.language (k :: earlier) = resumed v.host v.language earlier)
  | closed (speech : speech v (k :: earlier) = speech v earlier ++
        if (Store.generations v.host v.language (history earlier)).isEmpty then [] else [.closed])
      (generations : Store.generations v.host v.language (history (k :: earlier)) = [])
      (abandoned : abandoned v.host v.language (k :: earlier) =
        abandoned v.host v.language earlier)
      (resumed : resumed v.host v.language (k :: earlier) = resumed v.host v.language earlier)
  | generated (g : Store.Generation)
      (speech : speech v (k :: earlier) = speech v earlier ++
        [if (Store.generations v.host v.language (history earlier)).isEmpty then
          .opened v.language.id 1 g.document.text
        else .changed g.document.version g.document.text])
      (generations : Store.generations v.host v.language (history (k :: earlier)) =
        g :: Store.generations v.host v.language (history earlier))
      (abandoned : abandoned v.host v.language (k :: earlier) =
        abandoned v.host v.language earlier)
      (resumed : resumed v.host v.language (k :: earlier) =
        (resumed v.host v.language earlier || DocumentCall.abandoned v.host v.language earlier))

/-- Calls about other hosts add nothing. -/
theorem turn_of_ne {v : VirtualUri} {k : DocumentCall} (other : k.host? ≠ some v.host)
    (earlier : List DocumentCall) : Turn v earlier k := by
  have opens : k.opens v.host = false := by
    cases k with
    | opened d => simpa [DocumentCall.opens, host?] using other
    | edited | closed | regenerated => rfl
  have generates : k.generates v.host v.language earlier = false := by
    cases k with
    | opened | edited | closed => rfl
    | regenerated r =>
      have hosts : r.host ≠ v.host := fun same => other (congrArg some same)
      simp [DocumentCall.generates, hosts]
  refine .idle (by simp [speech, other]) ?_ (by simp [abandoned, opens])
    (by simp [resumed, generates])
  apply Store.generations_append_of_ne
  intro e he same
  exact other ((host_of_mem_edits he).trans (congrArg some same))

theorem turn_regenerated {v : VirtualUri} {r : Regeneration} (hh : r.host = v.host)
    (earlier : List DocumentCall) : Turn v earlier (.regenerated r) := by
  have about : (DocumentCall.regenerated r).host? = some v.host := congrArg some hh
  have history_cons : history (.regenerated r :: earlier) = .regenerated r :: history earlier := rfl
  have generations := Store.generations_regenerated v.host v.language r (history earlier)
  have abandoned : abandoned v.host v.language (.regenerated r :: earlier) =
      abandoned v.host v.language earlier := by simp [DocumentCall.abandoned, opens]
  by_cases hl : r.language = v.language
  · rw [if_pos ⟨hh, hl⟩] at generations
    cases hd : (Store.after (history earlier)).accepted? r with
    | none =>
      refine .idle ?_ (by simpa [history_cons, hd] using generations) abandoned ?_
      · simp [speech, said, hd]
      · simp [resumed, generates, hd]
    | some d =>
      refine .generated ⟨r, d⟩ ?_ (by simpa [history_cons, hd] using generations) abandoned ?_
      · rw [speech, if_pos about, said, if_pos hl, hd, ← ofDocument_of_accepted? hh hl hd]
        rfl
      · simp [resumed, generates, hd, hh, hl]
  · rw [if_neg fun h => hl h.2] at generations
    exact .idle (by simp [speech, said, hl]) generations abandoned (by simp [resumed, generates, hl])

theorem turn (v : VirtualUri) (earlier : List DocumentCall) (k : DocumentCall) :
    Turn v earlier k := by
  by_cases about : k.host? = some v.host
  · cases k with
    | opened d =>
      have begins : (DocumentCall.opened d).opens v.host = true := by
        simpa [opens, host?] using about
      refine .opened (by simp [speech, said]) ?_ (by simp [abandoned, begins])
        (by simp [resumed, generates])
      exact generations_of_interrupts (by simpa [interrupts, host?] using about) _ _
    | edited d =>
      have url : d.uri.toUrl? = some v.host := about
      refine .idle (by simp [speech, said]) ?_ (by simp [abandoned, opens])
        (by simp [resumed, generates])
      simp [history, change, Change.edits, url, Store.generations]
    | closed uri =>
      refine .closed (by rw [speech, if_pos about, said]) ?_ (by simp [abandoned, opens])
        (by simp [resumed, generates])
      exact generations_of_interrupts (by simpa [interrupts, host?] using about) _ _
    | regenerated r => exact turn_regenerated (Option.some.inj about) earlier
  · exact turn_of_ne about earlier

/-! ## Which messages are out of place -/

/-- A document that has been left behind has no text, until it is given one again. -/
theorem generations_of_abandoned {v : VirtualUri} {ks : List DocumentCall}
    (left : abandoned v.host v.language ks = true) (still : resumed v.host v.language ks = false) :
    Store.generations v.host v.language (history ks) = [] := by
  induction ks with
  | nil => cases left
  | cons k earlier ih =>
    cases turn v earlier k with
    | idle _ generations abandoned resumed =>
      rw [generations]
      exact ih (abandoned ▸ left) (resumed ▸ still)
    | opened _ generations => exact generations
    | closed _ generations => exact generations
    | generated g _ _ abandoned resumed =>
      rw [abandoned] at left
      rw [resumed, left] at still
      simp at still

/-- To servers a document is open if it has a text or has been left behind, and the first text after
it has been left behind is out of place. -/
theorem follow_speech (v : VirtualUri) (ks : List DocumentCall) :
    (speech v ks).foldlM DocumentMessage.follow false =
      if resumed v.host v.language ks then none
      else some (abandoned v.host v.language ks ||
        !(Store.generations v.host v.language (history ks)).isEmpty) := by
  induction ks with
  | nil => rfl
  | cons k earlier ih =>
    cases turn v earlier k with
    | idle speech generations abandoned resumed =>
      rw [speech, generations, abandoned, resumed, ih]
    | opened speech generations abandoned resumed =>
      rw [speech, generations, abandoned, resumed, ih]
      simp
    | closed speech generations abandoned resumed =>
      rw [speech, generations, abandoned, resumed, List.foldlM_append, ih]
      cases still : DocumentCall.resumed v.host v.language earlier with
      | true => simp
      | false =>
        cases left : DocumentCall.abandoned v.host v.language earlier with
        | true => simp [generations_of_abandoned left still]
        | false =>
          cases Store.generations v.host v.language (history earlier) <;>
            simp [DocumentMessage.follow]
    | generated g speech generations abandoned resumed =>
      rw [speech, generations, abandoned, resumed, List.foldlM_append, ih]
      cases still : DocumentCall.resumed v.host v.language earlier with
      | true => simp
      | false =>
        cases left : DocumentCall.abandoned v.host v.language earlier with
        | true => simp [generations_of_abandoned left still, DocumentMessage.follow]
        | false =>
          cases Store.generations v.host v.language (history earlier) <;>
            simp [DocumentMessage.follow]

/-- Servers are told of changes and closings of open documents only. -/
theorem founded_speech (v : VirtualUri) (ks : List DocumentCall) :
    DocumentMessage.Founded (speech v ks) ∧
      (Store.generations v.host v.language (history ks) ≠ [] →
        DocumentMessage.Opened (speech v ks)) := by
  induction ks with
  | nil =>
    refine ⟨?_, fun some => absurd rfl some⟩
    intro before m after split
    cases before <;> cases split
  | cons k earlier ih =>
    obtain ⟨founded, opened⟩ := ih
    cases turn v earlier k with
    | idle speech generations =>
      rw [speech, generations]
      exact ⟨founded, opened⟩
    | opened speech generations =>
      rw [speech, generations]
      exact ⟨founded, fun some => absurd rfl some⟩
    | closed speech generations =>
      rw [speech, generations]
      refine ⟨?_, fun some => absurd rfl some⟩
      split
      · rwa [List.append_nil]
      · next some => exact founded.append (.inr (opened (by simpa using some)))
    | generated g speech generations =>
      rw [speech]
      split
      · exact ⟨founded.append (.inl ⟨_, _, _, rfl⟩), fun _ => ⟨_, _, _, _, [], rfl, by simp⟩⟩
      · next some =>
        have already := opened (by simpa using some)
        exact ⟨founded.append (.inr already), fun _ => already.append (by simp)⟩

end DocumentCall

/-! ## What servers are told -/

/-- Of the documents that are closed with a host, one has a name. -/
theorem Core.filterMap_closeNotice (core : Core) (server : Server) {past : List Store.Event}
    {v : VirtualUri} {o : Opening} (accounted : Store.Accounted past v.host o)
    {d : VirtualSnapshot} (hd : o.virtual? v.language = some d) :
    ((o.virtuals.filter (·.version ≠ 0)).map core.closeNotice).filterMap
        (Notice.message? server v.url.text) =
      if d.version ≠ 0 ∧ (core.settings.contentTypes v.language).any server.serves then [.closed]
      else [] := by
  obtain ⟨mem, language⟩ := Store.Opening.mem_of_virtual? hd
  have uri : d.uri = v := VirtualUri.eq_of_host_language (accounted.host_of_mem mem) language
  have distinct : (o.virtuals.map (·.uri)).Nodup :=
    accounted.named ▸ Store.nodup_virtualUris v.host
  have hosts (e : VirtualSnapshot) (he : e ∈ o.virtuals) : e.uri.host = v.host :=
    accounted.host_of_mem he
  obtain ⟨others, rest, split⟩ := List.append_of_mem mem
  rw [split] at distinct hosts ⊢
  rw [List.map_append, List.map_cons, List.nodup_middle, List.nodup_cons] at distinct
  have silent (e : VirtualSnapshot) (he : e ∈ others ∨ e ∈ rest) :
      Notice.message? server v.url.text (core.closeNotice e) = none := by
    rw [message?_closeNotice, if_neg]
    rintro ⟨-, name⟩
    have host := hosts e (by simpa using he.elim .inl fun h => .inr (.inr h))
    have same : e.uri = d.uri := by
      rw [uri]
      exact VirtualUri.eq_of_host_language host (VirtualUri.language_eq_of_text_eq host name)
    apply distinct.1
    rw [← same, List.mem_append]
    exact he.imp List.mem_map_of_mem List.mem_map_of_mem
  have nobody (l : List VirtualSnapshot) (hl : ∀ e ∈ l, e ∈ others ∨ e ∈ rest) :
      ((l.filter (·.version ≠ 0)).map core.closeNotice).filterMap
        (Notice.message? server v.url.text) = [] := by
    rw [List.filterMap_map, List.filterMap_eq_nil_iff]
    intro e he
    exact silent e (hl e (List.mem_filter.1 he).1)
  have name : d.url.text = v.url.text := congrArg (fun u => u.url.text) uri
  rw [List.filter_append, List.map_append, List.filterMap_append,
    nobody others fun e he => .inl he, List.nil_append, List.filter_cons]
  by_cases new : d.version = 0
  · simpa [new] using nobody rest fun e he => .inr he
  · rw [if_pos (by simpa using new), List.map_cons, List.filterMap_cons, message?_closeNotice,
      nobody rest fun e he => .inr he, language]
    by_cases serves : (core.settings.contentTypes v.language).any server.serves = true
    · simp [new, serves, name]
    · simp [serves]

namespace World

open DocumentCall
open Scenario (Script)
open Scenario.Sample

variable {σ : Type} (c : Collaborators σ)

/-- What a server has read under the name of a virtual document in calls about the hosts one listens
to. -/
def told (w : World σ) (server : String) (v : VirtualUri) (listens : Url → Bool) :
    List DocumentCall → List DocumentMessage
  | [] => []
  | k :: earlier =>
    told w server v listens earlier ++
      if k.host?.any listens then (w.afterCalls c earlier).messages c k server v.url.text else []

theorem traffic_prefix_afterCalls (w : World σ) (ks : List DocumentCall) :
    w.traffic <+: (w.afterCalls c ks).traffic := by
  induction ks with
  | nil => exact List.prefix_rfl
  | cons k earlier ih =>
    simp only [afterCalls, call_eq]
    exact ih.trans (List.prefix_append ..)

/-- All that a server reads under the name is what it is told in calls about hosts. -/
theorem filterMap_traffic {w : World σ} (fresh : w.Fresh) {server : Server}
    (registered : w.core.registry.get? server.name = some server) (v : VirtualUri)
    (ks : List DocumentCall) :
    ((w.afterCalls c ks).traffic.drop w.traffic.length).filterMap
        (Traffic.message? server.name v.url.text) =
      w.told c server.name v (fun _ => true) ks := by
  induction ks with
  | nil => simp [afterCalls, told]
  | cons k earlier ih =>
    obtain ⟨one, known⟩ := registered_afterCalls (c := c) fresh registered earlier
    have said : (if k.host?.any fun _ => true then
        (w.afterCalls c earlier).messages c k server.name v.url.text else []) =
        (w.afterCalls c earlier).messages c k server.name v.url.text := by
      split
      · rfl
      · next nowhere =>
        -- a call that names no host says nothing
        refine (List.eq_nil_iff_forall_not_mem.2 fun m hm => ?_).symm
        obtain ⟨v', hv', -⟩ :=
          exists_of_mem_messages c (store_afterCalls c fresh.store earlier) one known hm
        exact nowhere (by simp [hv'])
    obtain ⟨more, before⟩ := w.traffic_prefix_afterCalls c earlier
    rw [told, said, ← ih, messages, afterCalls, call_eq, ← before, ← List.filterMap_append]
    simp [List.append_assoc]

variable {c}

/-- Under the name of a document of its own host, a closing says that the document is closed, if it
has been given a text. -/
theorem messages_closed {w : World σ} {past : List Store.Event}
    (sound : w.core.store = Store.after past) (one : w.core.registry.OneEach) {server : Server}
    (registered : w.core.registry.get? server.name = some server) {v : VirtualUri}
    (serves : (w.core.settings.contentTypes v.language).any server.serves = true)
    {uri : Uri} (hh : uri.toUrl? = some v.host) :
    w.messages c (.closed uri) server.name v.url.text =
      if (Store.generations v.host v.language past).isEmpty then [] else [.closed] := by
  rw [messages_eq c one registered, change, Core.change, Core.closeDocument, hh]
  simp only [sound, Store.get?]
  cases ho : (Store.after past).documents.get? v.host with
  | none =>
    have closed : Store.opening? v.host past = none := by
      rw [← Option.not_isSome_iff_eq_none, Store.isSome_opening?, ho]
      simp
    rw [Store.generations_eq_nil closed]
    rfl
  | some o =>
    have accounted := (Store.accounts past).current (Table.mem_of_get? ho)
    obtain ⟨d, hd⟩ := accounted.exists_virtual? (Store.language_mem_embedded v)
    have version := (Store.grown ho hd).version_eq
    refine (Core.filterMap_closeNotice _ server accounted hd).trans ?_
    cases hg : Store.generations v.host v.language past with
    | nil => simp [version, hg]
    | cons g gs =>
      have known : d.version ≠ 0 := by rw [version, hg, List.length_cons]; omega
      rw [if_pos ⟨known, serves⟩]
      rfl

/-- Of a call about its host, a server of a document's language hears what the call says about the
document. -/
theorem messages_eq_said {w : World σ} {earlier : List DocumentCall}
    (sound : w.core.store = Store.after (history earlier)) (one : w.core.registry.OneEach)
    {server : Server} (registered : w.core.registry.get? server.name = some server)
    {v : VirtualUri}
    (serves : (w.core.settings.contentTypes v.language).any server.serves = true)
    {k : DocumentCall} (about : k.host? = some v.host) :
    w.messages c k server.name v.url.text = said v earlier k := by
  cases k with
  | opened | edited =>
    rw [messages_eq c one registered]
    rfl
  | closed uri => exact messages_closed sound one registered serves about
  | regenerated r => exact messages_regenerated sound one registered serves (Option.some.inj about)

/-- Other servers hear nothing. -/
theorem messages_eq_nil {w : World σ} {past : List Store.Event}
    (sound : w.core.store = Store.after past) (one : w.core.registry.OneEach)
    {server : Server} (registered : w.core.registry.get? server.name = some server)
    {v : VirtualUri}
    (deaf : ¬ (w.core.settings.contentTypes v.language).any server.serves = true)
    {k : DocumentCall} (about : k.host? = some v.host) :
    w.messages c k server.name v.url.text = [] := by
  refine List.eq_nil_iff_forall_not_mem.2 fun m hm => ?_
  obtain ⟨v', hv', name, serves⟩ := exists_of_mem_messages c sound one registered hm
  have hosts : v'.host = v.host := Option.some.inj (hv'.symm.trans about)
  exact deaf (VirtualUri.language_eq_of_text_eq hosts name ▸ serves)

section Run

variable {w : World σ} (fresh : w.Fresh) {server : Server}
  (registered : w.core.registry.get? server.name = some server) {v : VirtualUri}
  {listens : Url → Bool} (own : listens v.host = true)

include fresh registered own

/-- What a server is told about a document is what calls about the host say, if the server is one of
the document's language, and nothing otherwise, as long as nobody else who is listened to has a
document of that name. -/
theorem told_eq_speech (ks : List DocumentCall)
    (alone : ∀ k ∈ ks, ∀ v' : VirtualUri, k.host? = some v'.host →
      listens v'.host = true → v'.url.text = v.url.text → v'.host = v.host) :
    w.told c server.name v listens ks =
      if (w.core.settings.contentTypes v.language).any server.serves then speech v ks else [] := by
  induction ks with
  | nil => simp [told, speech]
  | cons k earlier ih =>
    have before := ih fun k' hk' => alone k' (List.mem_cons_of_mem _ hk')
    obtain ⟨one, known⟩ := registered_afterCalls (c := c) fresh registered earlier
    have sound := store_afterCalls c fresh.store earlier
    have settings := (w.fixed_afterCalls c earlier).2
    rw [told, before]
    by_cases about : k.host? = some v.host
    · have heard : k.host?.any listens = true := by simpa [about] using own
      rw [if_pos heard]
      split
      · next serves =>
        rw [messages_eq_said sound one known (settings ▸ serves) about, speech, if_pos about]
      · next deaf =>
        rw [messages_eq_nil sound one known (settings ▸ deaf) about, List.append_nil]
    · rw [heard_of_ne fresh registered about (alone k List.mem_cons_self), List.append_nil, speech,
        if_neg about, List.append_nil]

end Run

/-- A server is told of a virtual document in whole lifetimes, up to the latest one, unless the
document was generated again after its host had been opened anew while servers knew it; to a server
of the document's language, it was then opened twice. No document is changed or closed that is not
open. All this is about the calls for the document's host: they are all that the server reads under
the document's name, unless a call was about another host with a document of that name. -/
theorem paired_iff_not_resumed (c : Collaborators σ) {w : World σ} (fresh : w.Fresh)
    {server : Server} (registered : w.core.registry.get? server.name = some server)
    (v : VirtualUri) (ks : List DocumentCall) :
    (Paired (w.told c server.name v (· = v.host) ks) ↔
      ((w.core.settings.contentTypes v.language).any server.serves = true →
        resumed v.host v.language ks = false)) ∧
    DocumentMessage.Founded (w.told c server.name v (· = v.host) ks) ∧
    ((∀ k ∈ ks, ∀ v' : VirtualUri, k.host? = some v'.host → v'.url.text = v.url.text →
        v'.host = v.host) →
      ((w.afterCalls c ks).traffic.drop w.traffic.length).filterMap
          (Traffic.message? server.name v.url.text) =
        w.told c server.name v (· = v.host) ks) := by
  have own : w.told c server.name v (· = v.host) ks =
      if (w.core.settings.contentTypes v.language).any server.serves then speech v ks else [] := by
    apply told_eq_speech fresh registered (by simp)
    intro k _ v' _ heard _
    simpa using heard
  rw [own]
  refine ⟨?_, ?_, ?_⟩
  · rw [DocumentMessage.paired_iff_follow]
    by_cases serves : (w.core.settings.contentTypes v.language).any server.serves = true
    · rw [if_pos serves, follow_speech]
      cases resumed v.host v.language ks <;> simp [serves]
    · simp [serves]
  · split
    · exact (founded_speech v ks).1
    · exact (founded_speech v []).1
  · intro alone
    rw [filterMap_traffic c fresh registered, told_eq_speech fresh registered rfl]
    intro k hk v' hv' _ name
    exact alone k hk v' hv' name

theorem paired_iff_not_resumed_reopened :
    resumed codeUri.host codeUri.language reopened = false ∧
      speech codeUri reopened =
        [.opened "csharp" 1 "word", .closed, .opened "csharp" 1 "word", .changed 2 "wordword"] ∧
      Paired (((twoServers.afterCalls Script.collaborators reopened).traffic.drop
          twoServers.traffic.length).filterMap
        (Traffic.message? server.name codeUri.url.text)) := by
  have fresh : twoServers.Fresh := ⟨rfl, [server, deafServer], rfl⟩
  have first : resumed codeUri.host codeUri.language reopened = false := by decide +kernel
  have hosts : ∀ k ∈ reopened, k.host? = some hostUrl := by decide +kernel
  obtain ⟨paired, -, all⟩ :=
    paired_iff_not_resumed Script.collaborators fresh (by decide : _ = some server) codeUri reopened
  refine ⟨first, by decide +kernel, ?_⟩
  rw [all fun k hk v' hv' _ => Option.some.inj (hv'.symm.trans (hosts k hk))]
  exact paired.2 fun _ => first

/-- The host is opened anew when its code has been generated, and the code is generated again. -/
def leftBehind : List DocumentCall :=
  [.regenerated (regeneration 1), .opened ⟨hostUri, "razor", 1, "@word"⟩,
    .regenerated (regeneration 1), .opened ⟨hostUri, "razor", 1, "@word"⟩]

/-- The server of code is told twice that the code is opened, and never that it is closed. -/
theorem not_paired_leftBehind :
    ((twoServers.afterCalls Script.collaborators leftBehind).traffic.drop
        twoServers.traffic.length).filterMap (Traffic.message? server.name codeUri.url.text) =
      [.opened "csharp" 1 "word", .opened "csharp" 1 "word"] ∧
    ¬ Paired [.opened "csharp" 1 "word", .opened "csharp" 1 "word"] := by
  have fresh : twoServers.Fresh := ⟨rfl, [server, deafServer], rfl⟩
  have registered : twoServers.core.registry.get? server.name = some server := by decide
  have hosts : ∀ k ∈ leftBehind, k.host? = some hostUrl := by decide +kernel
  constructor
  · rw [filterMap_traffic _ fresh registered, told_eq_speech fresh registered rfl]
    · decide +kernel
    · intro k hk v' hv' _ _
      exact Option.some.inj (hv'.symm.trans (hosts k hk))
  · rw [DocumentMessage.paired_iff_follow]
    decide

end World

end PolyglotLsp
