import PolyglotLsp.Proofs.Completion.Resolve
import PolyglotLsp.Proofs.Handler.Gathering
import PolyglotLsp.Proofs.Session.Owners

/-!
# Streamed references

References listen for partial results from before their server is asked until its answer is in
(`World.resume_landed`). They reply with the locations of all payloads that they have heard by then,
in the order of arrival, and those of the answer. A payload is missed only if the listener has ended
before. No other request stops it (`Request.stopsOnlyOwn`), and it completes only after its idle
time has passed without a payload (`World.exists_gathered`). That time is shorter than the time for
which an answer is waited for, unless somebody sets it otherwise, so that late payloads can be lost.
-/

namespace PolyglotLsp

variable {σ : Type} {c : Collaborators σ}

/-- What a server says that answers with a value or with nothing. -/
def Reply.ofOption {α : Type} : Option α → Reply α
  | none => .nothing
  | some a => .answer a

/-- The answer of a server is in, and so is all that it has sent before. -/
structure Flight.Landed (f : Flight) (now : Nat) (value : Json) : Prop where
  outcome : f.outcome = .answer value
  finish : f.finish ≤ now
  notes : ∀ n ∈ f.notes, n.1 ≤ now

namespace World

/-- The world once the notes of a flight have been taken in. -/
def noted (w : World σ) (f : Flight) : World σ := (takeNotes f.server w f.notes).1

/-- The one server that has been asked has answered. -/
theorem resume_landed (w : World σ) {f : Flight} {value : Json} (landed : f.Landed w.now value)
    {shape : Shape} {answer : Option shape.Val}
    (reads : shape.reply f.server f.method value = .ofOption answer) (method : String)
    (contentTypes : List String) (params : Except String Json) (timeout : Nat) :
    w.resume false (.askFirst shape method contentTypes params) ⟨[], [f], [], timeout⟩ =
      (w.noted f, .answered (.ok (answer.map (⟨f.server, ·⟩)))) := by
  have notes : (takeNotes f.server w f.notes).2 = [] := by
    rw [notes_takeNotes, List.dropWhile_eq_nil_iff]
    exact fun n hn => decide_eq_true (landed.notes n hn)
  have now : (takeNotes f.server w f.notes).1.now = w.now := (listens_takeNotes ..).now
  have flown : fly shape w [f] = (w.noted f, [], [⟨f.finish, f.server, .ofOption answer⟩]) := by
    simp only [fly, notes, now, landing, landed.finish, landed.outcome, List.isEmpty_nil,
      decide_true, Bool.and_self, if_true, reads, noted]
  simp only [resume, flyAll, flown, firstVerdict, exhausted, inOrder, List.mergeSort_singleton,
    List.map_cons, List.map_nil, Bool.false_eq_true, if_false, List.nil_append, List.isEmpty_nil,
    Bool.and_self, Bool.true_or, if_true]
  cases answer <;> rfl

/-- What a request gets from its listener is what the listener has heard. -/
theorem exists_gathered {w : World σ} {n : Nat} {token : Token} {idle since : Nat}
    {arrivals : List Arrival} (hears : w.correlator.Hears n token idle since arrivals)
    (going : w.core.progress.disposed = false) :
    ∃ heard missed, arrivals = heard ++ missed ∧
      (∀ a ∈ missed, Arrival.latest token since heard + idle ≤ a.moment) ∧
      w.gathered (some (n, token)) = Arrival.payloads token heard := by
  cases hears with
  | listening l found attends =>
    have known : w.core.progress.listener? n = some l := (Correlator.listener?_of_find? found).1
    refine ⟨arrivals, [], (List.append_nil _).symm, List.forall_mem_nil _, ?_⟩
    simp [gathered, Progress.gathered, known, attends.undecided, going, attends.kept]
  | completed l found heard missed split misses =>
    have known : w.core.progress.listener? n = some l := (Correlator.listener?_of_find? found).1
    refine ⟨heard, missed, split, misses.late, ?_⟩
    simp [gathered, Progress.gathered, known, misses.outcome, misses.kept]
  | disposed gone =>
    rw [show w.core.progress.disposed = true from gone] at going
    cases going

theorem disposed_takeNotes (server : String) (notes : List (Nat × ServerNote)) (w : World σ) :
    (takeNotes server w notes).1.core.progress.disposed = w.core.progress.disposed := by
  induction notes generalizing w with
  | nil => rfl
  | cons n rest ih =>
    obtain ⟨moment, note⟩ := n
    have told : (w.core.progress.deliverNotification note.method note.params).1.disposed =
        w.core.progress.disposed := by
      rw [Progress.deliverNotification_eq]
      split
      · rfl
      · unfold Progress.deliver
        split <;> rfl
    simp only [takeNotes]
    split
    · exact (ih _).trans told
    · rfl

/-- What references do with payloads and an answer. -/
theorem run_references {w : World σ} {listening : Option (Nat × Token)} {payloads : List Json}
    (gathered : w.gathered listening = payloads) {server : String}
    (answer : Option (List Location)) :
    (w.run c false (Handler.gather listening (.ok (answer.map (⟨server, ·⟩))) >>=
      fun v => pure (.references v) : Action Answer)).2 =
        if answer.isNone && (Handler.streamedLocations payloads).isEmpty then
          .finished (.ok (.references none))
        else
          ((w.stopped listening).run c false (do
            let locations ← Mapping.remapLocations
              (Handler.streamedLocations payloads ++ answer.getD [])
            pure (.references (some locations)) : Action Answer)).2 := by
  have values : (answer.map fun v => (⟨server, v⟩ : Tagged _)).map (·.value) = answer := by
    cases answer <;> rfl
  rw [run_gather_bind, gathered, Option.isNone_map, values]
  split
  · rfl
  · rfl

end World

/-- The editor's requests stop only listeners of their own. -/
theorem Request.stopsOnlyOwn (c : Collaborators σ) (q : Request) :
    Prog.StopsOnlyOwn c q.answer := by
  intro m
  have free : Free (StopsOwn (σ := σ)) := fun _ _ _ _ own => own
  suffices wp : ∃ Q : Post σ Answer, q.answer.wp c StopsOwn Q [] m by
    obtain ⟨Q, wp⟩ := wp
    unfold Action.wp at wp
    exact Prog.wp_mono wp fun _ _ _ _ _ => trivial
  cases q with
  | position r =>
    exact ⟨_, wp_answerPosition ⟨free, fun _ _ _ own _ => own, fun _ _ => List.forall_mem_nil _⟩⟩
  | diagnostics r =>
    exact ⟨_, wp_answerDiagnostics ⟨fun _ => List.forall_mem_nil _, fun _ _ _ =>
      ⟨free, fun _ _ => List.forall_mem_nil _, fun _ _ => List.forall_mem_nil _⟩⟩⟩
  | resolve item =>
    refine ⟨fun _ _ _ => True, ?_⟩
    rw [answer, Action.wp_map, Handler.resolve]
    dsimp only
    split
    · simp
    simp only [Action.wp_bind]
    refine Action.wp_call (free _ _ rfl rfl (List.forall_mem_nil _)) fun m₁ found _ => ?_
    rcases found with _ | context
    · simp
    simp only [Action.wp_bind]
    refine Action.wp_call (List.forall_mem_nil _) fun m₂ outcome _ => ?_
    rcases outcome with e | (_ | resolved)
    · cases e <;> simp
    · simp
    · simp only [Action.wp_bind, Action.wp_pure]
      exact Handler.wp_remapChanged free ..

/-- All that arrives from a moment at which a request listens, through several steps, until the
answer of its server is in. -/
def Session.streamed (c : Collaborators σ) (s : Session σ (Except RouterError Answer))
    (listened : Moment σ) (events : List (Session.Event σ (Except RouterError Answer)))
    (f : Flight) : List Arrival :=
  listened.world.arrivalsUpTo s.world ++ s.arrivals c events ++
    (s.play c events).world.arrivalsUpTo ((s.play c events).world.noted f)

/-- References reply with what they have heard since they began to listen, followed by the answer of
their server. What they miss arrives at least their idle time after the last payload that they have
heard. -/
theorem streamed_references (c : Collaborators σ) {s₀ s₁ s : Session σ (Except RouterError Answer)}
    (h : s₀.Reachable c) {turn : Nat} (first : s₁ = s₀.step c (.polled turn))
    {asked listened : Moment σ} {n : Nat} {token : Token}
    (new : ∀ t ∈ s₀.threads, ⟨.listen, asked, listened, some (n, token)⟩ ∉ t.calls)
    (began : ∃ t ∈ s₁.threads, ⟨.listen, asked, listened, some (n, token)⟩ ∈ t.calls)
    {events : List (Session.Event σ (Except RouterError Answer))} (onward : s₁.Onward c events)
    (handlers : ∀ t ∈ s₁.threads, ∃ q : Request, t.program = q.answer)
    (begun : ∀ p ∈ events.filterMap Session.Event.begins?, ∃ q : Request, p = q.answer)
    (later : s = s₁.play c events) (going : s.world.core.progress.disposed = false)
    {place : Nat} {t : Thread σ (Except RouterError Answer)} (ht : s.threads[place]? = some t)
    {r : PositionRequest} (program : t.program = (Request.position r).answer)
    {includeDeclaration : Bool} (ask : r.ask = .references includeDeclaration)
    (uncancelled : t.cancelled = false)
    (last : t.calls.getLast? = some ⟨.listen, asked, listened, some (n, token)⟩)
    {method : String} {contentTypes : List String} {params : Except String Json} {f : Flight}
    {next : Except RouterError (Option (Tagged (List Location))) → Prog (Except RouterError Answer)}
    {timeout : Nat} (waits : t.state =
      .blocked (.askFirst .locations method contentTypes params) ⟨[], [f], [], timeout⟩ next)
    {value : Json} (landed : f.Landed s.world.now value) {answer : Option (List Location)}
    (reads : Shape.reply .locations f.server f.method value = .ofOption answer) :
    ∃ heard missed,
      s₁.streamed c listened events f = heard ++ missed ∧
      (∀ a ∈ missed, Arrival.latest token listened.world.now heard +
        asked.world.core.settings.progressTimeout ≤ a.moment) ∧
      ∃ t', (s.step c (.polled place)).threads[place]? = some t' ∧
        t'.state =
          if answer.isNone && (Handler.streamedLocations (Arrival.payloads token heard)).isEmpty then
            .finished (.ok (.references none))
          else
            (((s.world.noted f).stopped (some (n, token))).run c false (do
              let locations ← Mapping.remapLocations
                (Handler.streamedLocations (Arrival.payloads token heard) ++ answer.getD [])
              pure (.references (some locations)) : Action Answer)).2 := by
  subst first
  have started : (s₀.step c (.polled turn)).Reachable c := h.step (.polled turn)
  have reachable : s.Reachable c := later ▸ started.play events
  obtain ⟨t₁, ht₁, listens⟩ := began
  have mem := List.mem_of_getElem? ht
  -- Nobody stops the listener as long as the request waits.
  have own : ∀ earlier, earlier <+: events → ∀ t ∈ ((s₀.step c (.polled turn)).play c
      earlier).threads, t.program.StopsOnlyOwn c := by
    intro earlier before t ht
    obtain ⟨q, same⟩ : ∃ q : Request, t.program = q.answer := by
      rcases Session.program_play ht with ⟨t', ht', same⟩ | ⟨cancelled, spawned⟩
      · exact same ▸ handlers t' ht'
      · exact begun _ (List.mem_filterMap.2 ⟨_, before.subset spawned, rfl⟩)
    exact same ▸ q.stopsOnlyOwn c
  have unstopped : ¬ t.Stopped n := reachable.not_stopped_of_getLast? mem
    (program ▸ Request.stopsOnlyOwn c (.position r)) last rfl
  have goesOn := started.goesOn_of_listener? ht₁ listens rfl (later ▸ mem)
    (List.mem_of_getLast? last)
  have keeps := started.keeps ht₁ listens rfl own (later ▸ mem) (List.mem_of_getLast? last)
    unstopped uncancelled
  -- what the listener has when the answer is in
  have active : t₁.cancelled = false := by
    rw [← Bool.not_eq_true]
    intro cancelled
    cases uncancelled.symm.trans (goesOn.cancelled cancelled)
  have hears := h.hears_play new ht₁ listens active onward keeps
  rw [← later] at hears
  have noted : s.world.Listens (s.world.noted f) [] := World.listens_takeNotes ..
  obtain ⟨fresh, registry⟩ := reachable.registered
  have hears := hears.run rfl fresh registry noted.runs List.not_mem_nil
  have going : (s.world.noted f).core.progress.disposed = false :=
    (World.disposed_takeNotes ..).trans going
  obtain ⟨heard, missed, split, late, gathered⟩ := World.exists_gathered hears going
  -- what the request does with it
  have resumed := s.world.resume_landed landed reads method contentTypes params timeout
  rw [← uncancelled] at resumed
  obtain ⟨t', ht', state⟩ := Session.exists_polled_of_answered (c := c) ht waits resumed
  have rest := (reachable.waits (List.mem_of_getElem? ht) program waits).2 rfl
  simp only [PositionRequest.asking, ask] at rest
  generalize t.calls = calls at rest last
  obtain ⟨gathering, ⟨projected, asked', answered', listening⟩, rfl⟩ := rest
  rw [List.getLast?_concat] at last
  cases last
  rw [uncancelled] at state
  rw [later] at split
  exact ⟨heard, missed, split, late, t', ht', state.trans (World.run_references gathered answer)⟩

/-! ## References of the sample -/

open Scenario Scenario.Sample

namespace Scenario.Sample

/-- Another place in an ordinary document. -/
def further : Location := ⟨⟨"file:///p/Third.cs", by decide +kernel⟩, word⟩

/-- References wait for the code. The server will stream one location at once and another one after
some time, and then has nothing to answer. -/
def beforeListening (pause : Nat) : Session Script (Except RouterError Answer) :=
  (Session.new (script (some 1) [((Ask.references true).method,
    [⟨[streaming 0 [elsewhere], streaming pause [further]], 100, .answer .null⟩])])).play
      Script.collaborators
      [.changed (.registered server), .changed (.stored (.opened hostUrl 1 "@word")),
        .spawned false (request (.references true)).answer, .polled 0,
        .changed (.regenerated (regeneration 1))]

/-- They begin to listen and ask the server. -/
def whileStreaming (pause : Nat) : Session Script (Except RouterError Answer) :=
  (beforeListening pause).step Script.collaborators (.polled 0)

variable {pause : Nat} {t : Thread Script (Except RouterError Answer)}

theorem reachable_beforeListening :
    (beforeListening pause).Reachable Script.collaborators := (Session.Reachable.new _).play _

theorem program_play_whileStreaming
    {events : List (Session.Event Script (Except RouterError Answer))}
    (nothing : events.filterMap Session.Event.begins? = [])
    (ht : t ∈ ((whileStreaming pause).play Script.collaborators events).threads) :
    t.program = (request (.references true)).answer := by
  have first {t : Thread Script (Except RouterError Answer)}
      (ht : t ∈ (whileStreaming pause).threads) :
      t.program = (request (.references true)).answer := by
    rcases Session.program_step ht with ⟨t', ht', same⟩ | ⟨cancelled, spawned⟩
    · exact same.symm.trans (List.mem_singleton.1 (Session.program_mem_begun ht'))
    · cases spawned
  rcases Session.program_play ht with ⟨t', ht', same⟩ | ⟨cancelled, spawned⟩
  · exact same.symm.trans (first ht')
  · have begun : t.program ∈ events.filterMap Session.Event.begins? :=
      List.mem_filterMap.2 ⟨_, spawned, rfl⟩
    rw [nothing] at begun
    cases begun

/-- The flight that references wait for, if it is the only one and its server has answered nothing,
in time. -/
def awaited? (now : Nat) (t : Thread Script (Except RouterError Answer)) : Option Flight :=
  match t.state with
  | .blocked (.askFirst .locations _ _ _) ⟨[], [f], [], _⟩ _ =>
    match f.outcome with
    | .answer .null =>
      if f.finish ≤ now ∧ f.finish ≤ f.deadline ∧ ∀ n ∈ f.notes, n.1 ≤ now then some f else none
    | _ => none
  | _ => none

theorem exists_of_awaited? {now : Nat} {f : Flight} (h : awaited? now t = some f) :
    (∃ method contentTypes params timeout next, t.state =
      .blocked (.askFirst .locations method contentTypes params) ⟨[], [f], [], timeout⟩ next) ∧
      f.Landed now .null ∧ f.finish ≤ f.deadline := by
  unfold awaited? at h
  split at h
  · next method contentTypes params f' timeout next waits =>
    split at h
    · next outcome =>
      split at h
      · next landed =>
        cases h
        exact ⟨⟨method, contentTypes, params, timeout, next, waits⟩,
          ⟨outcome, landed.1, landed.2.2⟩, landed.2.1⟩
      · cases h
    · cases h
  · cases h

/-- The listener that a call has registered, and its token. -/
def listening? : Call Script → Option (Nat × Token)
  | ⟨.listen, _, _, listening⟩ => listening
  | _ => none

theorem exists_of_listening? {k : Call Script} {n : Nat} {token : Token}
    (h : listening? k = some (n, token)) :
    ∃ asked listened, k = ⟨.listen, asked, listened, some (n, token)⟩ := by
  unfold listening? at h
  split at h
  · next asked listened listening =>
    subst h
    exact ⟨asked, listened, rfl⟩
  · cases h

/-- The token of the first listener. -/
def token : Token := .text "partial-results-1"

/-- What has arrived for references that are the first to listen and, whatever has happened since,
have only to find the answer of their server, and their idle time. -/
def glimpse (s : Session Script (Except RouterError Answer))
    (events : List (Session.Event Script (Except RouterError Answer))) :
    Option (List Arrival × Nat) := do
  let t ← (s.play Script.collaborators events).threads[0]?
  let f ← awaited? (s.play Script.collaborators events).world.now t
  let k ← t.calls.getLast?
  if t.cancelled = false ∧ listening? k = some (1, token) ∧ t.id < s.nextId ∧
      ∀ t₀ ∈ s.threads, t.calls.length ≤ t₀.calls.length then
    some (s.streamed Script.collaborators k.answered events f,
      k.asked.world.core.settings.progressTimeout)
  else none

theorem exists_of_glimpse {s : Session Script (Except RouterError Answer)}
    {events : List (Session.Event Script (Except RouterError Answer))} {arrivals : List Arrival}
    {idle : Nat} (h : glimpse s events = some (arrivals, idle)) :
    ∃ t f asked listened, (s.play Script.collaborators events).threads[0]? = some t ∧
      t.cancelled = false ∧
      t.calls.getLast? = some ⟨.listen, asked, listened, some (1, token)⟩ ∧
      (∃ t₀ ∈ s.threads, ⟨.listen, asked, listened, some (1, token)⟩ ∈ t₀.calls) ∧
      awaited? (s.play Script.collaborators events).world.now t = some f ∧
      asked.world.core.settings.progressTimeout = idle ∧
      s.streamed Script.collaborators listened events f = arrivals := by
  obtain ⟨t, ht, h⟩ := Option.bind_eq_some_iff.1 h
  obtain ⟨f, hf, h⟩ := Option.bind_eq_some_iff.1 h
  obtain ⟨k, last, h⟩ := Option.bind_eq_some_iff.1 h
  split at h
  · next made =>
    obtain ⟨uncancelled, listening, known, all⟩ := made
    obtain ⟨asked, listened, rfl⟩ := exists_of_listening? listening
    cases h
    obtain ⟨t₀, ht₀, goesOn⟩ := Session.goesOn_of_mem_play (List.mem_of_getElem? ht) known
    have same : t₀.calls = t.calls := goesOn.calls.eq_of_length_le (all t₀ ht₀)
    exact ⟨t, f, asked, listened, ht, uncancelled, last,
      ⟨t₀, ht₀, same ▸ List.mem_of_getLast? last⟩, hf, rfl, rfl⟩
  · cases h

end Scenario.Sample

theorem streamed_references_inTime :
    let events := [.released 0 server.name, .listened, .clock 2100]
    let s := (whileStreaming 2000).play Script.collaborators events
    ∃ t f asked listened, s.threads[0]? = some t ∧
      t.program = (request (.references true)).answer ∧ t.cancelled = false ∧
      t.calls.getLast? = some ⟨.listen, asked, listened, some (1, token)⟩ ∧
      f.Landed s.world.now .null ∧
      Handler.streamedLocations (Arrival.payloads token
        ((whileStreaming 2000).streamed Script.collaborators listened events f)) =
          [elsewhere, further] ∧
      ∃ t', (s.step Script.collaborators (.polled 0)).threads[0]? = some t' ∧
        t'.state = (((s.world.noted f).stopped (some (1, token))).run Script.collaborators false (do
          let locations ← Mapping.remapLocations [elsewhere, further]
          pure (.references (some locations)) : Action Answer)).2 := by
  intro events s
  have observed : (glimpse (whileStreaming 2000) events).map (fun x =>
      (Handler.streamedLocations (Arrival.payloads token x.1), x.1.all (·.moment < x.2))) =
        some ([elsewhere, further], true) := by decide +kernel
  have unheard : (beforeListening 2000).threads.all (fun t => t.calls.all fun k =>
      (listening? k).isNone) = true := by decide +kernel
  have onward : (whileStreaming 2000).Onward Script.collaborators events := by decide +kernel
  have going : s.world.core.progress.disposed = false := by decide +kernel
  obtain ⟨⟨arrivals, patience⟩, seen, both⟩ := Option.map_eq_some_iff.1 observed
  obtain ⟨t, f, asked, listened, ht, uncancelled, last, began, awaited, rfl, rfl⟩ :=
    exists_of_glimpse seen
  obtain ⟨⟨method, contentTypes, params, timeout, next, waits⟩, landed, -⟩ :=
    exists_of_awaited? awaited
  have program := program_play_whileStreaming rfl (List.mem_of_getElem? ht)
  have new : ∀ t ∈ (beforeListening 2000).threads,
      ⟨.listen, asked, listened, some (1, token)⟩ ∉ t.calls := by
    intro t ht hk
    have silent := List.all_eq_true.1 (List.all_eq_true.1 unheard t ht) _ hk
    cases silent
  have handlers : ∀ t ∈ ((whileStreaming 2000).play Script.collaborators []).threads,
      ∃ q : Request, t.program = q.answer := fun t ht => ⟨_, program_play_whileStreaming rfl ht⟩
  obtain ⟨heard, missed, split, late, t', ht', state⟩ := streamed_references Script.collaborators
    reachable_beforeListening (rfl : whileStreaming 2000 = _) new began onward handlers
    (List.forall_mem_nil _) (rfl : s = _) going ht program rfl uncancelled last waits landed
    (show _ = Reply.ofOption none from rfl)
  obtain ⟨streamed, early⟩ := Prod.mk.inj both
  -- no pause is as long as the idle time
  have all : missed = [] := by
    refine List.eq_nil_iff_forall_not_mem.2 fun a ha => ?_
    have arrived := List.all_eq_true.1 early a (split ▸ List.mem_append_right _ ha)
    have pause := late a ha
    simp only [decide_eq_true_eq] at arrived
    omega
  rw [all, List.append_nil] at split
  rw [split] at streamed
  refine ⟨t, f, asked, listened, ht, program, uncancelled, last, landed, ?_, t', ht', ?_⟩
  · rw [split, streamed]
  · rw [state, streamed]
    rfl

/-- A payload that arrives long after the one before is lost, although the answer is in time. -/
theorem late_reference_lost :
    let events := [.released 0 server.name, .listened, .clock 3400, .listened, .clock 3600]
    let s := (whileStreaming 3500).play Script.collaborators events
    (whileStreaming 3500).Onward Script.collaborators events ∧
      ∃ t f asked listened, s.threads[0]? = some t ∧
        t.program = (request (.references true)).answer ∧ t.cancelled = false ∧
        t.calls.getLast? = some ⟨.listen, asked, listened, some (1, token)⟩ ∧
        f.Landed s.world.now .null ∧ f.finish ≤ f.deadline ∧
        Handler.streamedLocations (Arrival.payloads token
          ((whileStreaming 3500).streamed Script.collaborators listened events f)) =
            [elsewhere, further] ∧
        ∃ t', (s.step Script.collaborators (.polled 0)).threads[0]? = some t' ∧
          t'.reply?.map (·.places) = some [elsewhere] := by
  intro events s
  have observed : (glimpse (whileStreaming 3500) events).map (fun x =>
      Handler.streamedLocations (Arrival.payloads token x.1)) = some [elsewhere, further] := by
    decide +kernel
  have replied : (s.step Script.collaborators (.polled 0)).threads[0]?.map
      (fun t => t.reply?.map (·.places)) = some (some [elsewhere]) := by decide +kernel
  have onward : (whileStreaming 3500).Onward Script.collaborators events := by decide +kernel
  obtain ⟨⟨arrivals, idle⟩, seen, streamed⟩ := Option.map_eq_some_iff.1 observed
  obtain ⟨t, f, asked, listened, ht, uncancelled, last, -, awaited, -, rfl⟩ :=
    exists_of_glimpse seen
  obtain ⟨-, landed, inTime⟩ := exists_of_awaited? awaited
  obtain ⟨t', ht', places⟩ := Option.map_eq_some_iff.1 replied
  have program := program_play_whileStreaming rfl (List.mem_of_getElem? ht)
  exact ⟨onward, t, f, asked, listened, ht, program, uncancelled, last, landed, inTime,
     streamed, t', ht', places⟩

end PolyglotLsp
