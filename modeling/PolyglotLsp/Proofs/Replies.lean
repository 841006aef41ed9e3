import PolyglotLsp.Handler.Request
import PolyglotLsp.Proofs.Handler.Completion
import PolyglotLsp.Proofs.Handler.Diagnostics
import PolyglotLsp.Proofs.Handler.Navigation

/-!
# What replies say of hosts

A reply holds ranges of the document that was asked about, or places in any document. The ranges are
those of the host at the version that the request saw at its start, whatever the editor, the
compiler, the services and the servers do meanwhile. A place in a host is one of the host at the
version that it had when the mapping service was asked. That is the version that the request saw at
its start only if nobody has edited the host by then. `Answer.Faithful` says both, of one reply and
the calls that were made for it; the handlers' own facts make it hold of every reply
(`Answer.faithful`).
-/

namespace PolyglotLsp

variable {σ : Type} {c : Collaborators σ} {I : List (Call σ) → Op → Prop}
  {calls : List (Call σ)} {m : Moment σ}

/-! ## Ranges and places of a reply -/

/-- The ranges that a reply gives of the document that was asked about. -/
def Answer.documentRanges : Answer → List Range
  | .hover v => v.toList.flatMap fun h => h.range.toList
  | .highlights v => v.toList.flatMap fun hs => hs.map (·.range)
  | .linkedRanges v => v.toList.flatMap (·.ranges)
  | .completion v => v.toList.flatMap fun l => l.items.flatMap CompletionItem.ranges
  | .edits v => v.toList.flatMap fun es => es.map (·.range)
  | .diagnostics ds => ds.map (·.range)
  | .definition _ | .references _ | .rename _ | .item _ => []

/-- The places in any document that a reply leads to or changes. -/
def Answer.places : Answer → List Location
  | .definition v => v.toList.flatMap Definition.places
  | .references v => v.toList.flatMap id
  | .rename v => v.toList.flatMap WorkspaceEdit.places
  | .hover _ | .highlights _ | .linkedRanges _ | .completion _ | .edits _ | .diagnostics _
  | .item _ => []

/-- What is promised of a reply: its ranges are of the host as it was at the start, and its places
were offered or came back. -/
structure Answer.Faithful (reply : Answer) (calls : List (Call σ)) : Prop where
  ranges : ∀ range ∈ reply.documentRanges, AtStart calls range
  places : ∀ l ∈ reply.places, Arrived calls l

theorem Request.wp_answerPosition {r : PositionRequest} (hI : Allows I r) :
    (answerPosition r).wp c I (fun reply calls _ => reply.Faithful calls) [] m := by
  unfold answerPosition
  cases hr : r.ask with
  | hover =>
    rw [Action.wp_map]
    refine Action.wp_mono (Handler.wp_hover hI) fun v calls _ _ h => ⟨?_, nofun⟩
    simpa [Answer.documentRanges] using fun range hover hv hr => h hover hv range hr
  | definition =>
    rw [Action.wp_map]
    refine Action.wp_mono (Handler.wp_definition hI) fun v calls _ _ h => ⟨nofun, ?_⟩
    simpa [Answer.places] using fun l d hd hl => h d hd l hl
  | highlight =>
    rw [Action.wp_map]
    refine Action.wp_mono (Handler.wp_highlight hI) fun v calls _ _ h => ⟨?_, nofun⟩
    simpa [Answer.documentRanges] using fun range hs hv x hx hr => hr ▸ h hs hv x hx
  | linkedEditing =>
    rw [Action.wp_map]
    refine Action.wp_mono (Handler.wp_linkedEditing hI) fun v calls _ _ h => ⟨?_, nofun⟩
    simpa [Answer.documentRanges] using fun range ranges hv hr => h ranges hv range hr
  | completion trigger =>
    rw [Action.wp_map]
    refine Action.wp_mono (Handler.wp_completion hI hr) fun v calls _ _ h => ⟨?_, nofun⟩
    simpa [Answer.documentRanges] using fun range l hl i hi hr => h l hl i hi range hr
  | references includeDeclaration =>
    rw [Action.wp_map]
    refine Action.wp_mono (Handler.wp_references hI) fun v calls _ _ h => ⟨nofun, ?_⟩
    simpa [Answer.places] using fun l ls hls hl => h ls hls l hl
  | rename newName =>
    rw [Action.wp_map]
    refine Action.wp_mono (Handler.wp_rename hI) fun v calls _ _ h => ⟨nofun, ?_⟩
    simpa [Answer.places] using fun l w hw hl => h w hw l hl
  | onTypeFormatting ch options =>
    rw [Action.wp_map]
    refine Action.wp_mono (Handler.wp_onTypeFormatting hI options) fun v calls _ _ h => ⟨?_, nofun⟩
    simpa [Answer.documentRanges] using fun range es hv e he hr => hr ▸ h es hv e he

theorem Request.wp_answerDiagnostics {r : DiagnosticRequest} (hI : AllowsDiagnostics I r) :
    (answer (.diagnostics r)).wp c I (fun reply calls _ => reply.Faithful calls) [] m := by
  rw [answer, Action.wp_map]
  refine Action.wp_mono (Handler.wp_diagnostics hI) fun ds calls _ _ h => ⟨?_, nofun⟩
  simpa [Answer.documentRanges] using h

theorem Request.wp_answer (q : Request) :
    q.answer.wp c (fun _ _ => True) (fun reply calls _ => reply.Faithful calls) [] m := by
  cases q with
  | position r => exact wp_answerPosition ⟨by simp [Free], by simp, by simp⟩
  | diagnostics r =>
    exact wp_answerDiagnostics ⟨by simp, fun _ _ _ => ⟨by simp [Free], by simp, by simp⟩⟩
  | resolve item =>
    rw [answer, Action.wp_map]
    exact Action.wp_mono (Action.wp_trivial _) fun _ _ _ _ _ => ⟨nofun, nofun⟩

theorem Answer.faithful {s : Session σ (Except RouterError Answer)} (hs : s.Reachable c)
    {t : Thread σ (Except RouterError Answer)} (ht : t ∈ s.threads) {q : Request}
    (hq : t.program = q.answer) {reply : Answer} (hr : t.reply? = some reply) :
    reply.Faithful t.calls := by
  obtain ⟨_, faithful⟩ := hs.finished ht hq (fun _ _ => q.wp_answer) hr
  exact faithful

/-! ## Requests of the sample -/

open Scenario Scenario.Sample

namespace Scenario.Sample

/-- A request about the second column of the host. -/
def request (a : Ask) : Request := .position ⟨⟨hostUri, ⟨0, 1⟩⟩, a, none, none⟩

/-- The request is begun while the code is missing and goes on when the code is there; what it asks
the server goes out at once. A few changes happen before the server answers. -/
def asking (outside : Script) (q : Request) (meanwhile : List Change) :
    Session Script (Except RouterError Answer) :=
  (Session.new outside).play Script.collaborators <|
    [.changed (.registered server), .changed (.stored (.opened hostUrl 1 "@word")),
      .spawned false q.answer, .polled 0, .changed (.regenerated (regeneration 1)),
      .polled 0, .released 0 server.name] ++ meanwhile.map .changed ++
      [.clock 5, .polled 0, .released 0 server.name]

variable {outside : Script} {q : Request} {meanwhile : List Change}

theorem reachable_asking : (asking outside q meanwhile).Reachable Script.collaborators :=
  (Session.Reachable.new _).play _

theorem program_asking {t : Thread Script (Except RouterError Answer)}
    (ht : t ∈ (asking outside q meanwhile).threads) : t.program = q.answer := by
  have begun := Session.program_mem_begun ht
  -- changes begin nothing
  have quiet (ks : List Change) :
      (ks.map .changed : List (Session.Event Script (Except RouterError Answer))).filterMap
        Session.Event.begins? = [] := by
    simp [List.filterMap_eq_nil_iff, Session.Event.begins?]
  rw [List.filterMap_append, List.filterMap_append, quiet] at begun
  exact List.mem_singleton.1 begun

end Scenario.Sample

/-! ## Ranges of the document that was asked about -/

/-- Every range in a reply comes from an answer of the mapping service about the host at the very
version that the request saw at its start, and the host was open at that version when the answer was
accepted. -/
theorem documentRanges_at_start {s : Session σ (Except RouterError Answer)} (hs : s.Reachable c)
    {t : Thread σ (Except RouterError Answer)} (ht : t ∈ s.threads) {q : Request}
    (hq : t.program = q.answer) {reply : Answer} (hr : t.reply? = some reply)
    {range : Range} (hrange : range ∈ reply.documentRanges) :
    ∃ h, Began t.calls h ∧ ∃ k ∈ t.calls, k.Genuine c ∧ range ∈ k.rangesAt h.url h.version := by
  obtain ⟨h, hh, k, hk, hat⟩ := (Answer.faithful hs ht hq hr).ranges range hrange
  have genuine : ∀ k ∈ t.calls, k.Genuine c := fun k hk => hs.genuine ht hk
  exact ⟨h, began_of_snapshot? hh genuine, k, hk, genuine k hk, hat⟩

/-- A hover during which the code is regenerated. -/
def Scenario.Sample.hovering : Session Script (Except RouterError Answer) :=
  let answers := slowly "textDocument/hover" (Hover.toJson ⟨.scalar (.text "int"), word⟩)
  asking (script (some 1) answers) (request .hover) [.regenerated (regeneration 1)]

theorem documentRanges_at_start_hovering :
    ∃ t ∈ hovering.threads, ∃ reply, t.reply? = some reply ∧ word ∈ reply.documentRanges ∧
      ∃ h, Began t.calls h ∧ ∃ k ∈ t.calls, k.Genuine Script.collaborators ∧
        word ∈ k.rangesAt h.url h.version := by
  have replied : hovering.threads.map (fun t => t.reply?.map (·.documentRanges)) =
      [some [word]] := by decide +kernel
  obtain ⟨t, ht, hreply⟩ := List.mem_map.1 (replied ▸ List.mem_singleton_self _)
  obtain ⟨reply, hr, hranges⟩ := Option.map_eq_some_iff.1 hreply
  have hword : word ∈ reply.documentRanges := hranges ▸ List.mem_singleton_self _
  exact ⟨t, ht, reply, hr, hword,
    documentRanges_at_start reachable_asking ht (program_asking ht) hr hword⟩

/-! ## Places in any document -/

/-- Every place in a reply was offered by a server in an ordinary document, or is one of a host at
the version that the host had when the mapping service was asked. If it is a place of the host that
the request is about, it is one at the version that the request saw at its start exactly if the host
was still at that version when the mapping service was asked. -/
theorem places_of_reply {s : Session σ (Except RouterError Answer)} (hs : s.Reachable c)
    {t : Thread σ (Except RouterError Answer)} (ht : t ∈ s.threads) {q : Request}
    (hq : t.program = q.answer) {reply : Answer} (hr : t.reply? = some reply)
    {l : Location} (hl : l ∈ reply.places) :
    ∃ h, Began t.calls h ∧
      ((Mapping.virtualUrl? l.uri = none ∧ ∃ k ∈ t.calls, l ∈ k.offers) ∨
        ∃ host, host.toUri? = some l.uri ∧ ∃ k ∈ t.calls, k.Genuine c ∧
          (∃ version, k.asked.store.hostVersion? host = some version ∧
            l.range ∈ k.rangesAt host version) ∧
          (host = h.url → (l.range ∈ k.rangesAt h.url h.version ↔
            k.asked.store.hostVersion? h.url = some h.version))) := by
  obtain ⟨h, hh, htraced⟩ := (Answer.faithful hs ht hq hr).places l hl
  have genuine : ∀ k ∈ t.calls, k.Genuine c := fun k hk => hs.genuine ht hk
  refine ⟨h, began_of_snapshot? hh genuine, ?_⟩
  rcases htraced with ⟨hl, hu⟩ | ⟨host, version, hu, k, hk, hasked, hat⟩
  · exact .inl ⟨hu, List.mem_flatMap.1 hl⟩
  · refine .inr ⟨host, hu, k, hk, genuine k hk, ⟨version, hasked, hat⟩, ?_⟩
    rintro rfl
    constructor
    · intro hat'
      rw [hasked, Call.version_of_mem_rangesAt hat hat']
    · intro hasked'
      rw [hasked] at hasked'
      cases hasked'
      exact hat

/-- A definition during which the host is edited. The mapping service knows the new version. -/
def Scenario.Sample.moved : Session Script (Except RouterError Answer) :=
  let answers := slowly "textDocument/definition" (Location.toJson ⟨codeFile, word⟩)
  asking (script (some 2) answers) (request .definition)
    [.stored (.edited hostUrl 2 [⟨none, none, "@words"⟩])]

/-- What is on record of the request: the places of its reply, the host it saw, the places that the
server offered, and the ranges of the host at its first version. -/
theorem Scenario.Sample.record_moved :
    moved.threads.map (fun t => (t.reply?.map (·.places),
      (snapshot? t.calls).map fun h => (h.url, h.version), t.calls.flatMap Call.offers,
      t.calls.flatMap (Call.rangesAt hostUrl 1))) =
    [(some [⟨hostUri, word⟩], some (hostUrl, 1), [⟨codeFile, word⟩], [])] := by decide +kernel

theorem places_of_reply_moved :
    ∃ t ∈ moved.threads, ∃ reply, t.reply? = some reply ∧ ⟨hostUri, word⟩ ∈ reply.places ∧
      ∃ h, Began t.calls h ∧ ∃ host, host.toUri? = some hostUri ∧ ∃ k ∈ t.calls,
        (∃ version, k.asked.store.hostVersion? host = some version ∧
          word ∈ k.rangesAt host version) ∧
        (host = h.url → (word ∈ k.rangesAt h.url h.version ↔
          k.asked.store.hostVersion? h.url = some h.version)) := by
  obtain ⟨t, ht, record⟩ := List.mem_map.1 (record_moved ▸ List.mem_singleton_self _)
  simp only [Prod.mk.injEq] at record
  obtain ⟨hreply, -, hoffers, -⟩ := record
  obtain ⟨reply, hr, hplaces⟩ := Option.map_eq_some_iff.1 hreply
  have hl : ⟨hostUri, word⟩ ∈ reply.places := hplaces ▸ List.mem_singleton_self _
  obtain ⟨h, hbegan, ⟨-, k, hk, hoffer⟩ | ⟨host, hu, k, hk, -, hat, hexact⟩⟩ :=
    places_of_reply reachable_asking ht (program_asking ht) hr hl
  · have offered := List.mem_flatMap.2 ⟨k, hk, hoffer⟩
    rw [hoffers] at offered
    exact absurd offered (by decide +kernel)
  · exact ⟨t, ht, reply, hr, hl, h, hbegan, host, hu, k, hk, hat, hexact⟩

/-- The place in the reply lies in the host that the request is about. The server did not offer it,
and no answer of the mapping service gave it as one at the version that the request saw. -/
theorem places_after_edit :
    moved.Reachable Script.collaborators ∧ ∃ t ∈ moved.threads,
      t.program = (request .definition).answer ∧ ∃ reply h, t.reply? = some reply ∧
        Began t.calls h ∧ h.url.toUri? = some hostUri ∧ ⟨hostUri, word⟩ ∈ reply.places ∧
        ∀ k ∈ t.calls, ⟨hostUri, word⟩ ∉ k.offers ∧ word ∉ k.rangesAt h.url h.version := by
  obtain ⟨t, ht, record⟩ := List.mem_map.1 (record_moved ▸ List.mem_singleton_self _)
  simp only [Prod.mk.injEq] at record
  obtain ⟨hreply, hsnapshot, hoffers, hranges⟩ := record
  obtain ⟨reply, hr, hplaces⟩ := Option.map_eq_some_iff.1 hreply
  obtain ⟨h, hh, hhost⟩ := Option.map_eq_some_iff.1 hsnapshot
  obtain ⟨hurl, hversion⟩ := Prod.mk.inj hhost
  have began := began_of_snapshot? hh fun k hk => reachable_asking.genuine ht hk
  refine ⟨reachable_asking, t, ht, program_asking ht, reply, h, hr, began, ?_, ?_, ?_⟩
  · rw [hurl]
    decide +kernel
  · rw [hplaces]
    exact List.mem_singleton_self _
  · intro k hk
    constructor
    · intro hoffer
      have offered := List.mem_flatMap.2 ⟨k, hk, hoffer⟩
      rw [hoffers] at offered
      exact absurd offered (by decide +kernel)
    · intro hrange
      rw [hurl, hversion] at hrange
      have given := List.mem_flatMap.2 ⟨k, hk, hrange⟩
      rw [hranges] at given
      cases given

end PolyglotLsp
