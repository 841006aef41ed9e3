import PolyglotLsp.Handler.Request
import PolyglotLsp.Proofs.Handler.Diagnostics
import PolyglotLsp.Proofs.Session.Verdicts
import PolyglotLsp.Proofs.Session.Yields
import PolyglotLsp.Scenario.Sample

/-!
# How diagnostics are pulled

A request for diagnostics waits for one virtual document of the host after the other. Once a
document is ready, its content types are read, and the servers of one type after the other are asked
for all that they report (`Handler.wp_asks`); what was found takes its places in the host by one
answer of the mapping service, if that counts (`Handler.wp_placing`). This is all that a request
asks of servers (`Handler.wp_pulls`). So a server is asked about a document as often as it serves
one of the document's content types (`DiagnosticAsk.countP_requests`), and what it reports comes
back as often as it was asked (`diagnostics_pulled`).
-/

namespace PolyglotLsp

variable {σ : Type} {c : Collaborators σ} {calls calls' : List (Call σ)} {m : Moment σ}

/-! ## What a pull consists of -/

/-- A question about a virtual document to the servers of one content type, and their reports. -/
structure DiagnosticAsk (σ : Type) where
  contentType : String
  asked : Moment σ
  answered : Moment σ
  reports : List (Tagged DiagnosticReport)

namespace DiagnosticAsk

def call (params : Json) (a : DiagnosticAsk σ) : Call σ :=
  ⟨.askAll .diagnosticReport "textDocument/diagnostic" a.contentType (.ok params), a.asked,
    a.answered, .ok a.reports⟩

/-- The servers that were asked. -/
def servers (a : DiagnosticAsk σ) : List Server :=
  a.asked.world.core.registry.serversFor [a.contentType]

end DiagnosticAsk

/-- How one virtual document was pulled: how the wait for it ended, under which name and for which
content types servers were asked, where the mapping service found their diagnostics, and what was
left of them. -/
structure DocumentPull (σ : Type) where
  document : VirtualSnapshot
  outcome : Option VirtualSnapshot
  uri : Uri
  types : List String
  asks : List (DiagnosticAsk σ)
  places : List (Option Range)
  items : List Diagnostic

/-- A diagnostic without the places it points to, which are taken back to their hosts one by one. -/
def Diagnostic.gist (d : Diagnostic) : Diagnostic := { d with related := none }

/-- Diagnostics at their places, those without a place left out. -/
def Diagnostic.placed (found : List Diagnostic) (places : List (Option Range)) : List Diagnostic :=
  (found.zip places).filterMap fun (d, place) => place.map fun range => { d.gist with range }

/-- The places of so many ranges that an answer of the mapping service gives; none unless it was
computed for the host's version and the host is still at this version. -/
def HostSnapshot.placesIn (h : HostSnapshot) (store : Store) (count : Nat) :
    Except RouterError (Option MappedRanges) → List (Option Range)
  | .ok (some a) =>
    if a.hostVersion = some h.version ∧ store.hostVersion? h.url = some h.version ∧
      a.ranges.length = count then a.ranges else []
  | _ => []

namespace DocumentPull

/-- The parameters with which servers were asked about the document. -/
def params (r : DiagnosticRequest) (p : DocumentPull σ) : Json :=
  { r with uri := p.uri, previousResultId := none : DiagnosticRequest }.toJson

/-- What servers were asked about the document, ask by ask. -/
def rounds (r : DiagnosticRequest) (p : DocumentPull σ) : List (List (String × String × Json)) :=
  p.asks.map fun a => a.servers.map fun s => (s.name, "textDocument/diagnostic", p.params r)

def requests (r : DiagnosticRequest) (p : DocumentPull σ) : List (String × String × Json) :=
  (p.rounds r).flatten

/-- All that servers reported about the document, ask by ask. -/
def found (p : DocumentPull σ) : List Diagnostic :=
  p.asks.flatMap fun a => Handler.reported a.reports

/-- What a pull has left among the calls of its request. -/
structure Recorded (r : DiagnosticRequest) (h : HostSnapshot) (calls : List (Call σ))
    (p : DocumentPull σ) : Prop where
  waited : ∃ asked answered,
    ⟨.synchronize h.version p.document, asked, answered, p.outcome⟩ ∈ calls
  skipped : p.outcome = none → p.types = []
  named : p.outcome.isSome → p.document.url.toUri? = some p.uri ∧
    ∃ asked answered, ⟨.contentTypes p.document.language, asked, answered, p.types⟩ ∈ calls
  types : p.asks.map (·.contentType) = p.types
  asked : ∀ a ∈ p.asks, a.call (p.params r) ∈ calls
  items : p.items.map (·.gist) = Diagnostic.placed p.found p.places
  mapped : p.found ≠ [] → ∃ asked answered answer,
    ⟨.mapRanges p.document.language h.url (p.found.map (·.range)), asked, answered, answer⟩ ∈
      calls ∧
    p.places = (answer.map (h.placesIn answered.store p.found.length)).getD []

theorem Recorded.later {r : DiagnosticRequest} {h : HostSnapshot} {p : DocumentPull σ}
    (hp : p.Recorded r h calls) (more : calls ⊆ calls') : p.Recorded r h calls' := by
  refine { hp with waited := ?_, named := ?_, asked := ?_, mapped := ?_ }
  · obtain ⟨asked, answered, hk⟩ := hp.waited
    exact ⟨asked, answered, more hk⟩
  · intro reached
    obtain ⟨uri, asked, answered, hk⟩ := hp.named reached
    exact ⟨uri, asked, answered, more hk⟩
  · exact fun a ha => more (hp.asked a ha)
  · intro some
    obtain ⟨asked, answered, answer, hk, places⟩ := hp.mapped some
    exact ⟨asked, answered, answer, more hk, places⟩

/-- Nobody is asked about a document that does not get ready. -/
def skip (d : VirtualSnapshot) (uri : Uri) : DocumentPull σ := ⟨d, none, uri, [], [], [], []⟩

theorem recorded_skip {r : DiagnosticRequest} {h : HostSnapshot} {d : VirtualSnapshot} {uri : Uri}
    (waited : ∃ asked answered, ⟨.synchronize h.version d, asked, answered, none⟩ ∈ calls) :
    (skip d uri).Recorded r h calls where
  waited := waited
  skipped _ := rfl
  named reached := Bool.noConfusion reached
  types := rfl
  asked _ ha := absurd ha List.not_mem_nil
  items := rfl
  mapped some := absurd rfl some

end DocumentPull

/-! ## One virtual document -/

/-- An operation that asks no server, or every server of a content type. -/
def Op.sweeps : Op → Bool
  | .askFirst .. | .ask .. => false
  | _ => true

theorem Op.sweeps_of_quiet {o : Op} (quiet : o.asks = false) : o.sweeps = true := by
  cases o with
  | askFirst | ask => cases quiet
  | _ => rfl

/-- Only such operations are asked. -/
abbrev Sweeping (σ : Type) : List (Call σ) → Op → Prop := fun _ o => o.sweeps = true

/-- The servers that a call asks, in no particular order, if it asks any. -/
def Call.rounds (k : Call σ) : List (List (String × String × Json)) :=
  match k.op with
  | .askAll _ method contentType (.ok params) =>
    [(k.asked.world.core.registry.serversFor [contentType]).map fun s => (s.name, method, params)]
  | _ => []

theorem Call.rounds_eq_nil {k : Call σ} (quiet : k.op.asks = false) : k.rounds = [] := by
  unfold Call.rounds
  split
  · next hk => simp [hk, Op.asks] at quiet
  · rfl

/-- Once a call has been answered, each of its servers has received the request once. -/
theorem Call.Ran.rounds {k : Call σ} {requests : List (String × String × Json)}
    (h : k.Ran c requests) (sweeps : k.op.sweeps = true) :
    ∃ rounds, List.Forall₂ List.Perm rounds k.rounds ∧ rounds.flatten = requests := by
  obtain ⟨turns, ended⟩ := h
  have silent (none : k.op.request? = none) (asksNobody : k.rounds = []) :
      ∃ rounds, List.Forall₂ List.Perm rounds k.rounds ∧ rounds.flatten = requests := by
    have sent := TaskState.sent_of_silent (c := c) none k.asked.world turns
    rw [ended] at sent
    rw [asksNobody]
    exact ⟨[], .nil, sent.symm⟩
  obtain ⟨o, asked, answered, result⟩ := k
  cases o with
  | askFirst | ask => cases sweeps
  | askAll shape method contentType params =>
    cases params with
    | error => exact silent rfl rfl
    | ok params =>
      obtain ⟨-, -, sent⟩ := World.allVerdict_of_finished (congrArg Prod.fst ended)
      rw [ended] at sent
      exact ⟨[requests], .cons sent .nil, List.flatten_singleton⟩
  | _ => exact silent rfl rfl

/-- Servers receive what the calls of a request ask, call by call. -/
theorem exists_rounds {requests : List (List (String × String × Json))}
    (ran : List.Forall₂ (Call.Ran c) calls requests) (sweeps : ∀ k ∈ calls, k.op.sweeps = true) :
    ∃ rounds, List.Forall₂ List.Perm rounds (calls.flatMap Call.rounds) ∧
      rounds.flatten = requests.flatten := by
  induction ran with
  | nil => exact ⟨[], .nil, rfl⟩
  | cons first _ ih =>
    obtain ⟨rounds, same, sent⟩ := first.rounds (sweeps _ List.mem_cons_self)
    obtain ⟨later, same', sent'⟩ := ih fun k hk => sweeps k (List.mem_cons_of_mem _ hk)
    refine ⟨rounds ++ later, List.rel_append same same', ?_⟩
    rw [List.flatten_append, List.flatten_cons, sent, sent']

/-- A program that asks no server adds only calls that do not. -/
theorem Action.wp_quiet {α : Type} {x : Action α} {Q : Post σ α}
    (h : ∀ I : List (Call σ) → Op → Prop, Free I → x.wp c I Q calls m) :
    x.wp c (Sweeping σ) (fun a calls' m' => Q a calls' m' ∧
      ∃ more, calls' = calls ++ more ∧ ∀ k ∈ more, k.op.asks = false) calls m :=
  Action.wp_ops (h _ fun _ _ quiet _ _ => ⟨Op.sweeps_of_quiet quiet, quiet⟩)

namespace Handler

/-- Servers of one content type after the other are asked. -/
theorem wp_asks (params : Json) (types : List String) :
    (types.mapM fun contentType => do
      let reports ← Action.ofExcept (← Action.call
        (.askAll .diagnosticReport "textDocument/diagnostic" contentType (.ok params)))
      pure (reported reports) : Action (List (List Diagnostic))).wp c (Sweeping σ)
        (fun found calls' _ => ∃ asks : List (DiagnosticAsk σ),
          asks.map (·.contentType) = types ∧ found = asks.map (fun a => reported a.reports) ∧
            calls' = calls ++ asks.map (·.call params)) calls m := by
  refine Action.wp_mapM (fun done found calls' _ => ∃ asks : List (DiagnosticAsk σ),
    asks.map (·.contentType) = done ∧ found = asks.map (fun a => reported a.reports) ∧
      calls' = calls ++ asks.map (·.call params)) types ⟨[], rfl, rfl, by simp⟩ ?_
  rintro _ contentType rest _ _ m' - ⟨asks, rfl, rfl, rfl⟩
  simp only [Action.wp_bind]
  refine Action.wp_call rfl fun answered result _ => ?_
  simp only [Action.wp_ofExcept, Action.wp_pure]
  rintro reports rfl
  refine ⟨asks ++ [⟨contentType, m', answered, reports⟩], by simp, by simp, ?_⟩
  simp [DiagnosticAsk.call]

end Handler

namespace DocumentPull

variable {r : DiagnosticRequest} {h : HostSnapshot}

theorem rounds_calls (p : DocumentPull σ) :
    (p.asks.map (·.call (p.params r))).flatMap Call.rounds = p.rounds r := by
  rw [List.flatMap_map, rounds, List.map_eq_flatMap]
  rfl

/-- The calls of a pull whose document got ready: after the wait, the content types are read,
servers are asked, and no server is asked again. -/
theorem recorded_calls (p : DocumentPull σ) (r : DiagnosticRequest) (h : HostSnapshot)
    (m m₁ m₂ : Moment σ) (ready : p.outcome.isSome = true)
    (named : p.document.url.toUri? = some p.uri) (types : p.asks.map (·.contentType) = p.types)
    {later : List (Call σ)} (quiet : ∀ k ∈ later, k.op.asks = false)
    (items : p.items.map (·.gist) = Diagnostic.placed p.found p.places)
    (mapped : p.found ≠ [] → ∃ asked answered answer,
      ⟨.mapRanges p.document.language h.url (p.found.map (·.range)), asked, answered, answer⟩ ∈
        later ∧
      p.places = (answer.map (h.placesIn answered.store p.found.length)).getD []) :
    let more := [⟨.synchronize h.version p.document, m, m₁, p.outcome⟩,
      ⟨.contentTypes p.document.language, m₁, m₂, p.types⟩] ++
        p.asks.map (·.call (p.params r)) ++ later
    p.Recorded r h more ∧ more.flatMap Call.rounds = p.rounds r := by
  intro more
  have silent : later.flatMap Call.rounds = [] :=
    List.flatMap_eq_nil_iff.2 fun k hk => Call.rounds_eq_nil (quiet k hk)
  refine ⟨?_, ?_⟩
  · exact {
      waited := ⟨m, m₁, by simp [more]⟩
      skipped := fun skipped => by simp [skipped] at ready
      named := fun _ => ⟨named, m₁, m₂, by simp [more]⟩
      types := types
      asked := fun a ha => by
        refine List.mem_append_left _ (List.mem_append_right _ ?_)
        exact List.mem_map_of_mem ha
      items := items
      mapped := fun some => by
        obtain ⟨asked, answered, answer, hk, places⟩ := mapped some
        exact ⟨asked, answered, answer, List.mem_append_right _ hk, places⟩ }
  · simp only [more, List.flatMap_append, silent, List.append_nil, rounds_calls]
    rfl

end DocumentPull

namespace Mapping

/-- The mapping service is asked once, and its answer gives the places of the ranges or none. -/
theorem wp_placesIn (language : Language) (h : HostSnapshot) (ranges : List Range) :
    (mapRanges language h.url ranges h.version).wp c (Sweeping σ)
      (fun mapped calls' _ => ∃ asked answered answer later,
        calls' = calls ++ ⟨.mapRanges language h.url ranges, asked, answered, answer⟩ :: later ∧
        (∀ k ∈ later, k.op.asks = false) ∧
        (mapped.map (·.ranges)).getD [] =
          (answer.map (h.placesIn answered.store ranges.length)).getD []) calls m := by
  simp only [mapRanges, Action.wp_bind]
  refine Action.wp_call rfl fun answered answer _ => ?_
  rcases answer with _ | answer
  · simp only [Action.wp_pure]
    exact ⟨m, answered, none, [], rfl, by simp, rfl⟩
  simp only [Action.wp_ofExcept, Action.wp_bind]
  rintro (_ | a) rfl
  · simp only [Action.wp_pure]
    exact ⟨m, answered, some (.ok none), [], rfl, by simp, rfl⟩
  simp only [isCurrent, Action.wp_bind, Action.wp_pure]
  refine Action.wp_call rfl fun m₂ version hk => ?_
  have current : m₂ = answered ∧ version = answered.store.hostVersion? h.url := hk.answers
  obtain ⟨rfl, rfl⟩ := current
  have recorded (mapped : Option HostRanges) (places : (mapped.map (·.ranges)).getD [] =
      h.placesIn m₂.store ranges.length (.ok (some a))) :
      ∃ asked answered answer later, calls ++
          [⟨.mapRanges language h.url ranges, m, m₂, some (.ok (some a))⟩] ++
          [⟨.hostVersion h.url, m₂, m₂, m₂.store.hostVersion? h.url⟩] =
        calls ++ ⟨.mapRanges language h.url ranges, asked, answered, answer⟩ :: later ∧
        (∀ k ∈ later, k.op.asks = false) ∧ (mapped.map (·.ranges)).getD [] =
          (answer.map (h.placesIn answered.store ranges.length)).getD [] := by
    refine ⟨m, m₂, some (.ok (some a)),
      [⟨.hostVersion h.url, m₂, m₂, m₂.store.hostVersion? h.url⟩], ?_, ?_, places⟩
    · rw [List.append_assoc]
      rfl
    · simp [Op.asks]
  split
  · next current =>
    simp only [Bool.and_eq_true, beq_iff_eq] at current
    split
    · next complete =>
      simp only [Action.wp_pure]
      refine recorded _ ?_
      rw [HostSnapshot.placesIn, if_pos ⟨current.1, current.2, complete⟩]
      rfl
    · next incomplete =>
      simp only [Action.wp_pure]
      refine recorded _ ?_
      rw [HostSnapshot.placesIn, if_neg fun counts => incomplete counts.2.2]
      rfl
  · next stale =>
    simp only [Bool.and_eq_true, beq_iff_eq] at stale
    simp only [Action.wp_pure]
    refine recorded _ ?_
    rw [HostSnapshot.placesIn, if_neg fun counts => stale ⟨counts.1, counts.2.1⟩]
    rfl

end Mapping

namespace Handler

theorem wp_gist {I : List (Call σ) → Op → Prop} (hI : Free I) (d : Diagnostic)
    (place : Option Range) :
    (placeDiagnostic d place).wp c I (fun placed _ _ =>
      placed.map (·.gist) = place.map fun range => { d.gist with range }) calls m := by
  unfold placeDiagnostic
  split
  · simp
  · next range =>
    simp only [Action.wp_bind, Action.wp_pure]
    cases d.related with
    | none => simp [Diagnostic.gist]
    | some related =>
      simp only [Option.mapM_some, Action.wp_map]
      refine Action.wp_mono (wp_remapRelated hI related) fun related' _ _ _ _ => ?_
      rfl

/-- Diagnostics take their places one by one. -/
theorem wp_placed {I : List (Call σ) → Op → Prop} (hI : Free I) (found : List Diagnostic)
    (places : List (Option Range)) :
    ((found.zip places).mapM fun (d, place) => placeDiagnostic d place).wp c I
      (fun placed _ _ => (placed.filterMap id).map Diagnostic.gist =
        Diagnostic.placed found places) calls m := by
  refine Action.wp_mapM (fun done placed _ _ => (placed.filterMap id).map Diagnostic.gist =
    done.filterMap fun (d, place) => place.map fun range => { d.gist with range })
    (found.zip places) rfl ?_
  rintro done ⟨d, place⟩ rest placed calls' m' - hplaced
  refine Action.wp_mono (wp_gist hI d place) fun placed' _ _ _ gist => ?_
  have last : ([placed'].filterMap id).map Diagnostic.gist =
      (placed'.map Diagnostic.gist).toList := by
    cases placed' <;> rfl
  rw [List.filterMap_append, List.map_append, hplaced, List.filterMap_append, last, gist]
  cases place <;> rfl

/-- What was found takes its places if the mapping service knows them and its answer counts. -/
theorem wp_placing (language : Language) (h : HostSnapshot) (found : List Diagnostic) :
    (if found.isEmpty then pure []
    else do
      match ← Mapping.mapRanges language h.url (found.map (·.range)) h.version with
      | none => pure []
      | some mapped => do
        let placed ← (found.zip mapped.ranges).mapM fun (d, range) => placeDiagnostic d range
        pure (placed.filterMap id) : Action (List Diagnostic)).wp c (Sweeping σ)
        (fun items calls' _ => ∃ places later, calls' = calls ++ later ∧
          (∀ k ∈ later, k.op.asks = false) ∧
          items.map (·.gist) = Diagnostic.placed found places ∧
          (found ≠ [] → ∃ asked answered answer,
            ⟨.mapRanges language h.url (found.map (·.range)), asked, answered, answer⟩ ∈ later ∧
            places = (answer.map (h.placesIn answered.store found.length)).getD [])) calls m := by
  split
  · next nothing =>
    simp only [Action.wp_pure]
    have none : found = [] := List.isEmpty_iff.1 nothing
    refine ⟨[], [], (List.append_nil _).symm, fun k hk => absurd hk List.not_mem_nil, ?_,
      fun some => absurd none some⟩
    rw [none]
    rfl
  simp only [Action.wp_bind]
  refine Action.wp_mono (Mapping.wp_placesIn language h _) ?_
  rintro mapped _ m₁ - ⟨asked, answered, answer, later, rfl, quiet, places⟩
  rw [List.length_map] at places
  have quiet : ∀ k ∈ ⟨.mapRanges language h.url (found.map (·.range)), asked, answered, answer⟩ ::
      later, k.op.asks = false := by
    simpa [Op.asks] using quiet
  rcases mapped with _ | ranges
  · simp only [Action.wp_pure]
    refine ⟨[], _, rfl, quiet, by simp [Diagnostic.placed], fun _ => ?_⟩
    exact ⟨asked, answered, answer, List.mem_cons_self, places⟩
  · simp only [Action.wp_bind, Action.wp_pure]
    refine Action.wp_mono (Action.wp_quiet fun I hI => wp_placed hI _ ranges.ranges) ?_
    rintro placed _ m₂ - ⟨gists, rest, rfl, quiet'⟩
    refine ⟨ranges.ranges, _, List.append_assoc .., fun k hk => ?_, gists, fun _ => ?_⟩
    · rcases List.mem_append.1 hk with hk | hk
      · exact quiet k hk
      · exact quiet' k hk
    · exact ⟨asked, answered, answer, List.mem_append_left _ List.mem_cons_self, places⟩

/-- One virtual document is pulled: servers are asked once for each of its content types. -/
theorem wp_pull (h : HostSnapshot) (r : DiagnosticRequest) (d : VirtualSnapshot) :
    (virtualDiagnostics h r d).wp c (Sweeping σ) (fun items calls' _ =>
      ∃ (p : DocumentPull σ) (more : List (Call σ)), calls' = calls ++ more ∧ p.document = d ∧
        p.items = items ∧ p.Recorded r h more ∧ more.flatMap Call.rounds = p.rounds r)
      calls m := by
  simp only [virtualDiagnostics, Action.wp_bind]
  refine Action.wp_call rfl fun m₁ outcome hk => ?_
  rcases outcome with _ | found
  · simp only [Action.wp_pure]
    refine ⟨.skip d r.uri, _, rfl, rfl, rfl, DocumentPull.recorded_skip ?_, rfl⟩
    exact ⟨m, m₁, List.mem_singleton_self _⟩
  obtain ⟨huri, -⟩ := hk.answers found rfl
  simp only [Action.wp_bind]
  refine Projection.wp_serverUri found.url fun uri hu => ?_
  -- The document that was waited for may have another text by now, but not another name.
  have named : d.url.toUri? = some uri := by
    rw [← hu]
    exact congrArg (fun v : VirtualUri => v.url.toUri?) huri.symm
  refine Action.wp_call rfl fun m₂ types _ => ?_
  refine Action.wp_mono (wp_asks _ types) ?_
  rintro _ _ m₃ - ⟨asks, rfl, rfl, rfl⟩
  refine Action.wp_mono (wp_placing d.language h _) ?_
  rintro items _ m₄ - ⟨places, later, rfl, quiet, gists, mapped⟩
  rw [← List.flatMap_def] at gists mapped
  let p : DocumentPull σ :=
    ⟨d, some found, uri, asks.map (·.contentType), asks, places, items⟩
  obtain ⟨recorded, rounds⟩ :=
    p.recorded_calls r h m m₁ m₂ rfl named rfl quiet gists mapped
  refine ⟨p, _, ?_, rfl, rfl, recorded, rounds⟩
  simp [p, DocumentPull.params]

end Handler

/-! ## All virtual documents -/

/-- The calls of a request for diagnostics that has pulled these documents of a host. -/
structure Pulls (r : DiagnosticRequest) (h : HostSnapshot) (documents : List VirtualSnapshot)
    (pulls : List (DocumentPull σ)) (calls : List (Call σ)) : Prop where
  snapshot : snapshot? calls = some h
  documents : pulls.map (·.document) = documents
  rounds : calls.flatMap Call.rounds = pulls.flatMap (·.rounds r)
  recorded : ∀ p ∈ pulls, p.Recorded r h calls

theorem Pulls.next {r : DiagnosticRequest} {h : HostSnapshot} {documents : List VirtualSnapshot}
    {pulls : List (DocumentPull σ)} {more : List (Call σ)} (hp : Pulls r h documents pulls calls)
    (p : DocumentPull σ) (recorded : p.Recorded r h more)
    (rounds : more.flatMap Call.rounds = p.rounds r) :
    Pulls r h (documents ++ [p.document]) (pulls ++ [p]) (calls ++ more) where
  snapshot := snapshot?_later hp.snapshot (List.prefix_append ..)
  documents := by rw [List.map_append, hp.documents, List.map_singleton]
  rounds := by
    rw [List.flatMap_append, hp.rounds, rounds, List.flatMap_append, List.flatMap_singleton]
  recorded p' hp' := by
    rcases List.mem_append.1 hp' with hp' | hp'
    · exact (hp.recorded p' hp').later (List.subset_append_left ..)
    · rw [List.mem_singleton.1 hp']
      exact recorded.later (List.subset_append_right ..)

namespace Handler

/-- Every virtual document of the host is pulled, and nobody is asked about anything else. -/
theorem wp_pulls (r : DiagnosticRequest) :
    (diagnostics r).wp c (Sweeping σ) (fun items calls _ =>
      (snapshot? calls = none ∧ items = [] ∧ calls.flatMap Call.rounds = []) ∨
      ∃ h pulls, r.uri.toUrl? = some h.url ∧ Pulls r h h.virtuals pulls calls ∧
        items = pulls.flatMap (·.items)) [] m := by
  simp only [diagnostics, Projection.hostOf, Action.wp_bind]
  split
  · rw [Action.wp_pure]
    dsimp only
    rw [Action.wp_pure]
    exact .inl ⟨rfl, rfl, rfl⟩
  next url named =>
  refine Action.wp_call rfl fun m₁ host hk => ?_
  have found : m₁ = m ∧ host = m.store.get? url := hk.answers
  obtain ⟨rfl, rfl⟩ := found
  cases opened : m₁.store.get? url with
  | none =>
    rw [Action.wp_pure]
    exact .inl ⟨rfl, rfl, rfl⟩
  | some h =>
    have same : h.url = url := by
      have past := opened
      rw [hk.asked] at past
      exact (Store.named_of_get? past).1
    simp only [Action.wp_bind, Action.wp_pure]
    refine Action.wp_mono (Action.wp_mapM (fun done found calls' _ =>
      ∃ pulls, Pulls r h done pulls calls' ∧ found = pulls.map (·.items)) h.virtuals
      ⟨[], ⟨rfl, rfl, rfl, fun p hp => absurd hp List.not_mem_nil⟩, rfl⟩ ?_) ?_
    · rintro done d rest _ calls' m₂ - ⟨pulls, hp, rfl⟩
      refine Action.wp_mono (wp_pull h r d) ?_
      rintro _ _ m₃ - ⟨p, more, rfl, rfl, rfl, recorded, rounds⟩
      exact ⟨pulls ++ [p], hp.next p recorded rounds, by simp⟩
    · rintro _ calls' m₂ - ⟨pulls, hp, rfl⟩
      exact .inr ⟨h, pulls, by rw [named, same], hp, List.flatMap_def.symm⟩

end Handler

/-! ## What the calls mean -/

/-- A server that is registered throughout is asked once for each of the types that it serves. -/
theorem DiagnosticAsk.countP_requests {server : Server} (params : Json)
    {asks : List (DiagnosticAsk σ)}
    (one : ∀ a ∈ asks, a.asked.world.core.registry.OneEach)
    (registered : ∀ a ∈ asks, a.asked.world.core.registry.get? server.name = some server) :
    (asks.flatMap fun a => a.servers.map fun s =>
      (s.name, "textDocument/diagnostic", params)).countP (·.1 = server.name) =
      (asks.map (·.contentType)).countP server.serves := by
  induction asks with
  | nil => rfl
  | cons a asks ih =>
    have once : (a.servers.map fun s => (s.name, "textDocument/diagnostic", params)).countP
        (·.1 = server.name) = if server.serves a.contentType then 1 else 0 := by
      have chosen := (one a List.mem_cons_self).filterMap_serversFor
        (registered a List.mem_cons_self) [a.contentType] (some ())
      have count := congrArg List.length chosen
      rw [List.length_filterMap_eq_countP] at count
      rw [List.countP_map, servers]
      refine (List.countP_congr fun s _ => ?_).trans (count.trans ?_)
      · by_cases same : s.name = server.name <;> simp [same]
      · cases serves : server.serves a.contentType <;> simp [serves]
    have later := ih (fun b hb => one b (List.mem_cons_of_mem _ hb))
      fun b hb => registered b (List.mem_cons_of_mem _ hb)
    rw [List.flatMap_cons, List.countP_append, once, later, List.map_cons, List.countP_cons]
    omega

namespace DocumentPull

/-- How a virtual document was pulled by a request that has not been cancelled. -/
structure Sound (c : Collaborators σ) (r : DiagnosticRequest) (h : HostSnapshot)
    (calls : List (Call σ)) (p : DocumentPull σ) : Prop extends p.Recorded r h calls where
  settings : p.outcome.isSome → ∃ asked answered,
    ⟨.contentTypes p.document.language, asked, answered, p.types⟩ ∈ calls ∧
      p.types = asked.world.core.settings.contentTypes p.document.language
  reports : ∀ a ∈ p.asks, ∃ replies, a.asked.world.Replied c .diagnosticReport
    "textDocument/diagnostic" (p.params r) a.servers replies ∧ replies.Gathers (.ok a.reports)
  places : p.found ≠ [] → ∃ asked answered answer,
    ⟨.mapRanges p.document.language h.url (p.found.map (·.range)), asked, answered,
      some answer⟩ ∈ calls ∧
    answer = (c.mapRanges asked.world.outside p.document.language h.url
      (p.found.map (·.range))).2.value ∧
    p.places = h.placesIn answered.store p.found.length answer

theorem Recorded.sound {r : DiagnosticRequest} {h : HostSnapshot} {p : DocumentPull σ}
    (hp : p.Recorded r h calls) (ran : ∀ k ∈ calls, ∃ requests, k.Ran c requests)
    (one : ∀ k ∈ calls, k.asked.world.core.registry.OneEach) : p.Sound c r h calls := by
  refine { hp with settings := ?_, reports := ?_, places := ?_ }
  · intro ready
    obtain ⟨-, asked, answered, hk⟩ := hp.named ready
    obtain ⟨requests, ran⟩ := ran _ hk
    exact ⟨asked, answered, hk, ran.result_eq rfl rfl⟩
  · intro a ha
    have hk := hp.asked a ha
    obtain ⟨requests, turns, ended⟩ := ran _ hk
    obtain ⟨replied, all, -⟩ := World.allVerdict_of_finished (congrArg Prod.fst ended)
    refine ⟨_, replied, ?_⟩
    have all : .ok a.reports = Replies.all _ := all
    rw [all]
    exact Replies.gathers_all (replied.distinct (one _ hk).nodup_names)
  · intro some
    obtain ⟨asked, answered, answer, hk, places⟩ := hp.mapped some
    obtain ⟨requests, ran⟩ := ran _ hk
    have value := ran.result_eq rfl (Op.sure_mapRanges c asked.world ..)
    subst value
    exact ⟨asked, answered, _, hk, rfl, places⟩

end DocumentPull

/-! ## Diagnostics of the sample -/

open Scenario Scenario.Sample

namespace Scenario.Sample

/-- Settings under which code has two content types. -/
def twoTypes : Json :=
  .obj [("contentTypes", .obj [("csharp", Json.list Json.str ["csharp", "razor-csharp"])])]

/-- A report of one diagnostic. -/
def report : Json :=
  .obj [("kind", .str "full"),
    ("items", .arr [.obj [("range", word.toJson), ("message", .str "unused")]])]

def diagnosticRequest : DiagnosticRequest := ⟨hostUri, none, none, none, none⟩

/-- Code has two content types, a server serves some types, both virtual documents are ready, and
the host's diagnostics are pulled, for which the server is asked up to two times. -/
def diagnosed (types : List String) : Session Script (Except RouterError Answer) :=
  (Session.new (script (some 1) [("textDocument/diagnostic", [⟨[], 0, .answer report⟩])])).play
    Script.collaborators
    [.changed (.configured ⟨[], "", ""⟩ twoTypes), .changed (.registered ⟨"code", types, 0⟩),
      .changed (.stored (.opened hostUrl 1 "@word")),
      .changed (.regenerated ⟨hostUrl, .html, 1, []⟩), .changed (.regenerated (regeneration 1)),
      .spawned false (Request.diagnostics diagnosticRequest).answer, .polled 0,
      .released 0 "code", .polled 0, .released 0 "code", .polled 0]

theorem reachable_diagnosed (types : List String) :
    (diagnosed types).Reachable Script.collaborators := (Session.Reachable.new _).play _

variable {types : List String} {t : Thread Script (Except RouterError Answer)}

theorem program_diagnosed (ht : t ∈ (diagnosed types).threads) :
    t.program = (Request.diagnostics diagnosticRequest).answer :=
  List.mem_singleton.1 (Session.program_mem_begun ht)

/-- The servers that a request for diagnostics asked, each with the name of the document, and the
places and messages that came back, if the request was not cancelled and has been answered. -/
def glance (t : Thread Script (Except RouterError Answer)) :
    Option (List (String × Option String) × List (Range × String)) :=
  match t.reply? with
  | some (.diagnostics items) =>
    if t.cancelled then none
    else some (t.sent.map fun x => (x.server, ((x.params.get "textDocument").get "uri").asString?),
      items.map fun d => (d.range, d.message))
  | _ => none

theorem exists_of_glance {asked : List (String × Option String)} {placed : List (Range × String)}
    (h : (diagnosed types).threads.map glance = [some (asked, placed)]) :
    ∃ t ∈ (diagnosed types).threads, t.cancelled = false ∧
      ∃ items, t.reply? = some (.diagnostics items) ∧
        (t.sent.map fun x => (x.server, ((x.params.get "textDocument").get "uri").asString?)) =
          asked ∧
        (items.map fun d => (d.range, d.message)) = placed := by
  have glanced : some (asked, placed) ∈ (diagnosed types).threads.map glance := by simp [h]
  obtain ⟨t, ht, glanced⟩ := List.mem_map.1 glanced
  refine ⟨t, ht, ?_⟩
  unfold glance at glanced
  split at glanced
  · next items replied =>
    split at glanced
    · cases glanced
    · next uncancelled =>
      cases glanced
      exact ⟨eq_false_of_ne_true uncancelled, items, replied, rfl, rfl⟩
  · cases glanced

end Scenario.Sample

/-! ## The reply -/

/-- The reply to a request for diagnostics that has not been cancelled. Each virtual document of the
host is pulled: a server is asked about it once for each of its content types that the server
serves, and each diagnostic that is reported to such an ask comes back once, if the mapping service
knows its place in the host as it was at the start and still is. -/
theorem diagnostics_pulled {s : Session σ (Except RouterError Answer)}
    {t : Thread σ (Except RouterError Answer)} {r : DiagnosticRequest} {items : List Diagnostic}
    (h : s.Reachable c) (ht : t ∈ s.threads)
    (program : t.program = (Request.diagnostics r).answer) (uncancelled : t.cancelled = false)
    (replied : t.reply? = some (.diagnostics items)) :
    (snapshot? t.calls = none ∧ items = [] ∧ t.sent = []) ∨
    ∃ (host : HostSnapshot) (pulls : List (DocumentPull σ)),
      Began t.calls host ∧ r.uri.toUrl? = some host.url ∧
      pulls.map (·.document) = host.virtuals ∧
      items = pulls.flatMap (·.items) ∧
      (∃ rounds, List.Forall₂ List.Perm rounds (pulls.flatMap (·.rounds r)) ∧
        t.sent.map (·.request) = rounds.flatten) ∧
      ∀ p ∈ pulls, p.Sound c r host t.calls ∧
        ∀ server, (∀ a ∈ p.asks,
            a.asked.world.core.registry.get? server.name = some server) →
          (p.requests r).countP (·.1 = server.name) = p.types.countP server.serves := by
  have meets (m : Moment σ) : (Request.diagnostics r).answer.wp c (Sweeping σ)
      (fun answer calls _ => ∀ items, answer = .diagnostics items →
        (snapshot? calls = none ∧ items = [] ∧ calls.flatMap Call.rounds = []) ∨
        ∃ h pulls, r.uri.toUrl? = some h.url ∧ Pulls r h h.virtuals pulls calls ∧
          items = pulls.flatMap (·.items)) [] m := by
    simp only [Request.answer, Action.wp_map]
    refine Action.wp_mono (Handler.wp_pulls r) ?_
    rintro found calls' m' - pulled _ ⟨⟩
    exact pulled
  obtain ⟨_, pulled⟩ := h.finished ht program (fun m _ => meets m) replied
  obtain ⟨_, recorded⟩ := h.recorded ht program fun m _ => meets m
  have sweeps : ∀ k ∈ t.calls, k.op.sweeps = true := by
    intro k hk
    obtain ⟨earlier, later, split⟩ := List.append_of_mem hk
    exact recorded.allowed split
  have logged := h.logged ht uncancelled (Thread.finished_of_reply? replied)
  have followed : ∀ k ∈ t.calls, ∃ requests, k.Ran c requests := fun k hk => logged.ran hk
  obtain ⟨requests, ran, sent⟩ := logged
  obtain ⟨rounds, same, flat⟩ := exists_rounds ran sweeps
  rw [List.append_nil, ← flat] at sent
  rcases pulled items rfl with ⟨shut, none, silent⟩ | ⟨host, pulls, named, hp, all⟩
  · rw [silent, List.forall₂_nil_right_iff] at same
    rw [same, List.flatten_nil, List.map_eq_nil_iff] at sent
    exact .inl ⟨shut, none, sent⟩
  · have one : ∀ k ∈ t.calls, k.asked.world.core.registry.OneEach := (h.asksNamed ht).2
    rw [hp.rounds] at same
    refine .inr ⟨host, pulls, began_of_snapshot? hp.snapshot fun k hk => h.genuine ht hk, named,
      hp.documents, all, ⟨rounds, same, sent⟩, fun p hp' => ?_⟩
    have recorded := hp.recorded p hp'
    refine ⟨recorded.sound followed one, fun server registered => ?_⟩
    rw [← recorded.types, DocumentPull.requests, DocumentPull.rounds, ← List.flatMap_def]
    exact DiagnosticAsk.countP_requests _ (fun a ha => one _ (recorded.asked a ha)) registered

/-- A server that serves one of the types is asked once. -/
theorem diagnostics_pulled_once :
    ∃ t ∈ (diagnosed ["csharp"]).threads,
      (t.sent.map fun x => (x.server, ((x.params.get "textDocument").get "uri").asString?)) =
        [("code", some codeFile.text)] ∧
      ∃ (host : HostSnapshot) (pulls : List (DocumentPull Script)),
      pulls.map (·.document) = host.virtuals ∧
      (∃ rounds, List.Forall₂ List.Perm rounds (pulls.flatMap (·.rounds diagnosticRequest)) ∧
        t.sent.map (·.request) = rounds.flatten) ∧
      ∀ p ∈ pulls, p.Sound Script.collaborators diagnosticRequest host t.calls := by
  have glanced : (diagnosed ["csharp"]).threads.map glance =
      [some ([("code", some codeFile.text)], [(word, "unused")])] := by decide +kernel
  obtain ⟨t, ht, uncancelled, items, replied, asked, placed⟩ := exists_of_glance glanced
  have pulled :=
    diagnostics_pulled (reachable_diagnosed _) ht (program_diagnosed ht) uncancelled replied
  rcases pulled with ⟨-, rfl, -⟩ | ⟨host, pulls, -, -, documents, -, sent, sound⟩
  · cases placed
  · exact ⟨t, ht, asked, host, pulls, documents, sent, fun p hp => (sound p hp).1⟩

/-- A server that serves both types of a document is asked twice about it, and the one diagnostic
that it reports comes back twice. -/
theorem diagnostic_doubled :
    ∃ t ∈ (diagnosed ["csharp", "razor-csharp"]).threads,
      t.program = (Request.diagnostics diagnosticRequest).answer ∧ t.cancelled = false ∧
      (t.sent.map fun x => (x.server, ((x.params.get "textDocument").get "uri").asString?)) =
        [("code", some codeFile.text), ("code", some codeFile.text)] ∧
      (∃ items, t.reply? = some (.diagnostics items) ∧
        (items.map fun d => (d.range, d.message)) = [(word, "unused"), (word, "unused")]) ∧
      ∃ d, DiagnosticReport.ofJson? report = some (.full [d]) ∧ d.range = word ∧
        d.message = "unused" := by
  have glanced : (diagnosed ["csharp", "razor-csharp"]).threads.map glance =
      [some ([("code", some codeFile.text), ("code", some codeFile.text)],
        [(word, "unused"), (word, "unused")])] := by decide +kernel
  obtain ⟨t, ht, uncancelled, items, replied, asked, placed⟩ := exists_of_glance glanced
  refine ⟨t, ht, program_diagnosed ht, uncancelled, asked, ⟨items, replied, placed⟩, ?_⟩
  exact ⟨⟨word, none, none, none, none, "unused", none, none, none⟩, rfl, rfl, rfl⟩

end PolyglotLsp
