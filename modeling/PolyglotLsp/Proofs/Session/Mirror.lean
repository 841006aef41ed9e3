import PolyglotLsp.Proofs.Session.Calls
import PolyglotLsp.Scenario.Sample

/-!
# Servers mirror virtual documents

A server of a language is told every text that a virtual document of that language goes through: the
first text opens the document as version one, and each further text follows as the next version. So
what the server has read since the host was opened is a transcript of the document's texts
(`transcript`), and the store's version counts them.

Two hosts can have virtual documents of one name, so that a name alone does not say which document a
message is about. The messages of a document are those of the calls about its host; where no other
host has a document of that name, they are all the messages under the name. Both are cases of one
run lemma, in which the hosts to listen to are a parameter (`received_eq_generations`).
-/

namespace PolyglotLsp

/-- The messages that carry texts of a document one after the other, as versions from one on. -/
def transcript (language : Language) (texts : List String) : List DocumentMessage :=
  texts.mapIdx fun i text =>
    if i = 0 then .opened language.id 1 text else .changed (i + 1) text

namespace Store

/-- The texts that a virtual document has been given since its host was opened, the first one
first. -/
def texts (host : Url) (language : Language) (past : List Event) : List String :=
  (generations host language past).reverse.map (·.document.text)

namespace Grown

variable {uri : VirtualUri} {gs : List Generation} {d : VirtualSnapshot}

theorem transcript_eq (h : Grown uri gs d) :
    gs.reverse.map (fun g => DocumentMessage.ofDocument g.document) =
      transcript uri.language (gs.reverse.map (·.document.text)) := by
  induction h with
  | new => rfl
  | @next gs d earlier g named version reflects newer ih =>
    have count : g.document.version = gs.length + 1 := by rw [version, earlier.version_eq]
    have language : g.document.language = uri.language := congrArg VirtualUri.language named
    simp only [List.reverse_cons, List.map_append, List.map_cons, List.map_nil, ih, transcript,
      List.mapIdx_concat, List.length_map, List.length_reverse]
    congr 2
    by_cases first : gs.length = 0
    · simp [DocumentMessage.ofDocument, language, count, first]
    · have later : (gs.length : Int) + 1 ≠ 1 := by omega
      simp only [DocumentMessage.ofDocument, count, later, first, ↓reduceIte]

theorem text_eq (h : Grown uri gs d) :
    d.text = (gs.reverse.map (·.document.text)).getLastD "" := by
  cases h with
  | new => rfl
  | next => simp

end Grown

theorem generations_append_of_ne {host : Url} (language : Language) {during : List Event}
    (h : ∀ e ∈ during, e.host ≠ host) (past : List Event) :
    generations host language (during ++ past) = generations host language past := by
  induction during with
  | nil => rfl
  | cons e during ih =>
    have before := ih fun e' he' => h e' (List.mem_cons_of_mem _ he')
    exact (generations_of_ne (h e List.mem_cons_self) language _).trans before

end Store

namespace DocumentCall

/-- The calls since a host was last opened or closed. -/
def since (host : Url) (ks : List DocumentCall) : List DocumentCall :=
  ks.takeWhile fun k => !k.interrupts host

theorem generations_of_interrupts {k : DocumentCall} {host : Url} (h : k.interrupts host = true)
    (language : Language) (past : List Store.Event) :
    Store.generations host language (k.change.edits ++ past) = [] := by
  cases k with
  | opened d =>
    have url : d.uri.toUrl? = some host := by simpa [interrupts] using h
    simp [change, Change.edits, url, Store.generations]
  | closed uri =>
    have url : uri.toUrl? = some host := by simpa [interrupts] using h
    simp [change, Change.edits, url, Store.generations]
  | edited | regenerated => cases h

end DocumentCall

namespace World

open DocumentCall

variable {σ : Type} (c : Collaborators σ)

/-- A router of some servers whose documents nobody has touched. -/
structure Fresh (w : World σ) : Prop where
  store : w.core.store = .empty
  registry : ∃ servers, w.core.registry = .ofServers servers

/-- What a server has read under the name of a virtual document since its host was last opened, in
calls about the hosts one listens to. -/
def received (w : World σ) (server : String) (v : VirtualUri) (listens : Url → Bool) :
    List DocumentCall → List DocumentMessage
  | [] => []
  | k :: earlier =>
    if k.interrupts v.host then []
    else
      received w server v listens earlier ++
        if k.host?.any listens then (w.afterCalls c earlier).messages c k server v.url.text
        else []

variable {c}

/-- Under the name of a document of its own host, a regeneration says the new text, if it is
accepted and is one of that document. -/
theorem messages_regenerated {w : World σ} {past : List Store.Event}
    (sound : w.core.store = Store.after past) (one : w.core.registry.OneEach) {server : Server}
    (registered : w.core.registry.get? server.name = some server) {v : VirtualUri}
    (serves : (w.core.settings.contentTypes v.language).any server.serves = true)
    {r : Regeneration} (hh : r.host = v.host) :
    w.messages c (.regenerated r) server.name v.url.text =
      if r.language = v.language then
        ((Store.after past).accepted? r).toList.map .ofDocument
      else [] := by
  rw [messages_eq c one registered, change, Core.notices_regenerated, sound]
  cases hd : (Store.after past).accepted? r with
  | none => simp
  | some d =>
    obtain ⟨host, language⟩ := Store.uri_of_accepted? hd
    have hosts : d.uri.host = v.host := host.trans hh
    rw [Option.toList_some, List.map_singleton, List.map_singleton, List.filterMap_cons,
      Core.message?_textNotice]
    by_cases same : r.language = v.language
    · have uri : d.uri = v := VirtualUri.eq_of_host_language hosts (language.trans same)
      have name : d.url.text = v.url.text := congrArg (fun u => u.url.text) uri
      have served : (w.core.settings.contentTypes d.language).any server.serves = true := by
        rw [VirtualSnapshot.language, uri]
        exact serves
      rw [if_pos ⟨served, name⟩, if_pos same]
      rfl
    · have name : d.url.text ≠ v.url.text := fun text =>
        same (language.symm.trans (VirtualUri.language_eq_of_text_eq hosts text))
      rw [if_neg fun h => name h.2, if_neg same]
      rfl

section Run

variable {w : World σ} (fresh : w.Fresh) {server : Server}
  (registered : w.core.registry.get? server.name = some server) {v : VirtualUri}
  {listens : Url → Bool}

include fresh registered

theorem registered_afterCalls (ks : List DocumentCall) :
    (w.afterCalls c ks).core.registry.OneEach ∧
      (w.afterCalls c ks).core.registry.get? server.name = some server := by
  obtain ⟨servers, hs⟩ := fresh.registry
  rw [(w.fixed_afterCalls c ks).1]
  refine ⟨?_, registered⟩
  rw [hs]
  exact Registry.oneEach_ofServers servers

/-- A call about another host says nothing that is listened to, if nobody there has a document of
the name. -/
theorem heard_of_ne {k : DocumentCall} (other : k.host? ≠ some v.host)
    (alone : ∀ v' : VirtualUri, k.host? = some v'.host → listens v'.host = true →
      v'.url.text = v.url.text → v'.host = v.host) (earlier : List DocumentCall) :
    (if k.host?.any listens then (w.afterCalls c earlier).messages c k server.name v.url.text
      else []) = [] := by
  obtain ⟨one, known⟩ := registered_afterCalls (c := c) fresh registered earlier
  split
  · next heard =>
    refine List.eq_nil_iff_forall_not_mem.2 fun m hm => ?_
    obtain ⟨v', hv', name, -⟩ :=
      exists_of_mem_messages c (store_afterCalls c fresh.store earlier) one known hm
    rw [hv'] at heard
    exact other (hv'.trans (congrArg some (alone v' hv' heard name)))
  · rfl

theorem received_cons_of_ne {k : DocumentCall} (other : k.host? ≠ some v.host)
    (alone : ∀ v' : VirtualUri, k.host? = some v'.host → listens v'.host = true →
      v'.url.text = v.url.text → v'.host = v.host) (earlier : List DocumentCall) :
    w.received c server.name v listens (k :: earlier) =
      w.received c server.name v listens earlier := by
  have going : k.interrupts v.host = false := by
    cases k with
    | opened d => simpa [interrupts, host?] using other
    | closed uri => simpa [interrupts, host?] using other
    | edited | regenerated => rfl
  rw [received, going, heard_of_ne fresh registered other alone]
  simp

theorem received_cons_of_regenerated
    (serves : (w.core.settings.contentTypes v.language).any server.serves = true)
    (own : listens v.host = true) {r : Regeneration} (hh : r.host = v.host)
    {earlier : List DocumentCall}
    (before : w.received c server.name v listens earlier =
      (Store.generations v.host v.language (history earlier)).reverse.map fun g =>
        .ofDocument g.document) :
    w.received c server.name v listens (.regenerated r :: earlier) =
      (Store.generations v.host v.language (.regenerated r :: history earlier)).reverse.map
        fun g => .ofDocument g.document := by
  obtain ⟨one, known⟩ := registered_afterCalls (c := c) fresh registered earlier
  have served : ((w.afterCalls c earlier).core.settings.contentTypes v.language).any
      server.serves = true := by
    rw [(w.fixed_afterCalls c earlier).2]
    exact serves
  have heard : (DocumentCall.regenerated r).host?.any listens = true := by
    simpa [host?, hh] using own
  rw [received, if_neg (by simp [interrupts]), before, if_pos heard,
    messages_regenerated (store_afterCalls c fresh.store earlier) one known served hh,
    Store.generations_regenerated]
  by_cases same : r.language = v.language
  · rw [if_pos same, if_pos ⟨hh, same⟩]
    cases (Store.after (history earlier)).accepted? r <;> simp
  · rw [if_neg same, if_neg fun h => same h.2, List.append_nil]

/-- What is heard of a document are its generations, as long as nobody else who is listened to has a
document of that name. -/
theorem received_eq_generations
    (serves : (w.core.settings.contentTypes v.language).any server.serves = true)
    (own : listens v.host = true) (ks : List DocumentCall)
    (alone : ∀ k ∈ since v.host ks, ∀ v' : VirtualUri, k.host? = some v'.host →
      listens v'.host = true → v'.url.text = v.url.text → v'.host = v.host) :
    w.received c server.name v listens ks =
      (Store.generations v.host v.language (history ks)).reverse.map fun g =>
        .ofDocument g.document := by
  induction ks with
  | nil => rfl
  | cons k earlier ih =>
    have history_cons : history (k :: earlier) = k.change.edits ++ history earlier := rfl
    rw [history_cons]
    by_cases ends : k.interrupts v.host = true
    · -- both sides begin anew with an opening
      rw [generations_of_interrupts ends, received, if_pos ends]
      rfl
    · have now : since v.host (k :: earlier) = k :: since v.host earlier := by
        simp [since, ends]
      rw [now] at alone
      have before := ih fun k' hk' => alone k' (List.mem_cons_of_mem _ hk')
      by_cases about : k.host? = some v.host
      · -- only regenerations add to either side
        cases k with
        | opened d =>
          apply absurd _ ends
          simpa [interrupts, host?] using about
        | closed uri =>
          apply absurd _ ends
          simpa [interrupts, host?] using about
        | edited d =>
          obtain ⟨one, known⟩ := registered_afterCalls (c := c) fresh registered earlier
          have url : d.uri.toUrl? = some v.host := about
          have silent : (w.afterCalls c earlier).messages c (.edited d) server.name v.url.text =
              [] := by
            rw [messages_eq c one known]
            rfl
          rw [received, if_neg ends, silent, ite_self, List.append_nil, before]
          simp [change, Change.edits, url, Store.generations]
        | regenerated r =>
          exact received_cons_of_regenerated fresh registered serves own
            (Option.some.inj about) before
      · rw [received_cons_of_ne fresh registered about (alone k List.mem_cons_self), before,
          Store.generations_append_of_ne]
        intro e he same
        exact about ((host_of_mem_edits he).trans (congrArg some same))

end Run

/-- A regeneration that is ignored or rejected leaves everything as it is. -/
theorem call_of_not_accepted {w : World σ} {r : Regeneration}
    (h : w.core.store.accepted? r = none) : w.call c (.regenerated r) = w := by
  have core : (w.core.change (.regenerated r)).1 = w.core := by
    simp only [Core.change, Core.regenerate]
    unfold Store.accepted? at h
    cases hs : w.core.store.regenerate r with
    | error e => rfl
    | ok result =>
      obtain ⟨s, _ | d⟩ := result
      · rfl
      · rw [hs] at h
        cases h
  rw [call_eq, change, core, Core.notices_regenerated, h]
  simp

/-- Whatever is called, in whichever order, and whichever servers fail to take what they are told:
of every embedded language, an open host has a virtual document whose version counts the texts that
it has been given since the host was opened, the last of which it has. All that a server of the
language has been told about the document in this time is the transcript of these texts. It is all
that the server has read under the document's name, unless a call was about another host with a
document of that name. A regeneration that is ignored or rejected leaves everything as it is. -/
theorem received_eq_transcript (c : Collaborators σ) {w : World σ} (fresh : w.Fresh)
    {server : Server} (registered : w.core.registry.get? server.name = some server)
    {language : Language} (embedded : language ∈ Language.embedded)
    (serves : (w.core.settings.contentTypes language).any server.serves = true)
    (ks : List DocumentCall) {host : Url}
    (opened : ((w.afterCalls c ks).core.store.get? host).isSome = true) :
    (∃ d, (w.afterCalls c ks).core.store.virtual? host language = some d ∧
      d.version = (Store.texts host language (history ks)).length ∧
      d.text = (Store.texts host language (history ks)).getLastD "" ∧
      w.received c server.name d.uri (· = host) ks =
        transcript language (Store.texts host language (history ks)) ∧
      ((∀ k ∈ since host ks, ∀ v : VirtualUri, k.host? = some v.host →
          v.url.text = d.url.text → v.host = host) →
        w.received c server.name d.uri (fun _ => true) ks =
          transcript language (Store.texts host language (history ks)))) ∧
    ∀ r, (w.afterCalls c ks).core.store.accepted? r = none →
      (w.afterCalls c ks).call c (.regenerated r) = w.afterCalls c ks := by
  refine ⟨?_, fun r hr => call_of_not_accepted hr⟩
  have store := store_afterCalls c fresh.store ks
  rw [store] at opened ⊢
  obtain ⟨d, hd, grown⟩ := Store.exists_grown opened embedded
  -- the document found is the one that is named after the host and the language
  obtain ⟨d', hd', named, language'⟩ := Store.exists_virtual? opened embedded
  obtain rfl : d' = d := Option.some.inj (hd'.symm.trans hd)
  obtain rfl : d'.uri.host = host := Store.host_of_mem_virtualUris named
  obtain rfl : d'.uri.language = language := language'
  refine ⟨d', hd, ?_, grown.text_eq, ?_, ?_⟩
  · rw [grown.version_eq, Store.texts, List.length_map, List.length_reverse]
  · rw [received_eq_generations fresh registered serves (by simp), grown.transcript_eq]
    · rfl
    · intro k _ v _ heard _
      simpa using heard
  · intro alone
    rw [received_eq_generations fresh registered serves rfl, grown.transcript_eq]
    · rfl
    · intro k hk v hv _ name
      exact alone k hk v hv name

end World

open Scenario (Script)
open Scenario.Sample

/-- Another server of code, which takes no notifications. -/
def Scenario.Sample.deafServer : Server := ⟨"backup", ["csharp"], 1⟩

/-- Both servers are registered; the deaf one comes first. -/
def Scenario.Sample.twoServers : World Script where
  core := { Core.new with registry := .ofServers [server, deafServer] }
  outside := { script none [] with endpoints := [(0, ⟨[], none⟩), (1, ⟨[], some "deaf"⟩)] }
  now := 0
  traffic := []

/-- The host is opened, closed and opened again. Its code is generated before and after; the last
regeneration comes too late. -/
def Scenario.Sample.reopened : List DocumentCall :=
  [.regenerated (regeneration 1), .regenerated (regeneration 3),
    .edited ⟨hostUri, 2, [⟨none, none, "@words"⟩]⟩, .regenerated (regeneration 1),
    .opened ⟨hostUri, "razor", 1, "@word"⟩, .closed hostUri, .regenerated (regeneration 1),
    .opened ⟨hostUri, "razor", 1, "@word"⟩]

namespace World

theorem received_eq_transcript_reopened :
    (Script.collaborators.noticeFailure? twoServers.outside deafServer.endpoint
        "textDocument/didOpen" .null).isSome ∧
      ∃ d, (twoServers.afterCalls Script.collaborators reopened).core.store.virtual? hostUrl
          .csharp = some d ∧
        d.version = 2 ∧ d.text = "wordword" ∧
        twoServers.received Script.collaborators server.name d.uri (fun _ => true) reopened =
          [.opened "csharp" 1 "word", .changed 2 "wordword"] := by
  have fresh : twoServers.Fresh := ⟨rfl, [server, deafServer], rfl⟩
  have opened : ((twoServers.afterCalls Script.collaborators reopened).core.store.get?
      hostUrl).isSome = true := by
    rw [store_afterCalls _ fresh.store]
    decide +kernel
  have texts : Store.texts hostUrl .csharp (DocumentCall.history reopened) =
      ["word", "wordword"] := by decide +kernel
  have hosts : ∀ k ∈ reopened, k.host? = some hostUrl := by decide +kernel
  obtain ⟨⟨d, hd, version, text, -, all⟩, -⟩ :=
    received_eq_transcript Script.collaborators fresh (by decide : _ = some server)
      (by decide : Language.csharp ∈ Language.embedded) (by decide) reopened opened
  rw [texts] at version text all
  refine ⟨by decide, d, hd, version, text, all ?_⟩
  intro k hk v hv _
  have mem : k ∈ reopened := List.takeWhile_subset _ hk
  exact Option.some.inj (hv.symm.trans (hosts k mem))

end World

end PolyglotLsp
