import PolyglotLsp.Proofs.Session.Basic

/-!
# What operations answer

Whatever happens between the moment at which an operation is asked and the moment at which it
answers, its answer is genuine: documents are read off the store at once, services answer what they
were asked, and a synchronization ends with the document itself or with one that was published
under the opening that was in force when it began (`start_answered`, `turn_answered`). No operation
changes the store, and only those that ask servers make servers receive requests (`start_extends`,
`turn_extends`).
-/

namespace PolyglotLsp

variable {σ : Type} {c : Collaborators σ}

/-! ## The store and the traffic -/

/-- Between two worlds the store stays as it is, and servers receive these requests. -/
structure World.Extends (w w' : World σ) (requests : List (String × String × Json)) : Prop where
  store : w'.core.store = w.core.store
  traffic : ∃ seen, w'.traffic = w.traffic ++ seen ∧ seen.filterMap Traffic.request? = requests

namespace World

variable {w w' w'' : World σ} {requests requests' : List (String × String × Json)}

theorem Extends.rfl : w.Extends w [] := ⟨Eq.refl _, [], (List.append_nil _).symm, Eq.refl _⟩

theorem Extends.trans (h : w.Extends w' requests) (h' : w'.Extends w'' requests') :
    w.Extends w'' (requests ++ requests') := by
  obtain ⟨seen, ht, rfl⟩ := h.traffic
  obtain ⟨seen', ht', rfl⟩ := h'.traffic
  exact ⟨h'.store.trans h.store, seen ++ seen', by rw [ht', ht, List.append_assoc],
    List.filterMap_append⟩

theorem Extends.of_eq (hs : w'.core.store = w.core.store) (ht : w'.traffic = w.traffic) :
    w.Extends w' [] := ⟨hs, [], by rw [ht, List.append_nil], Eq.refl _⟩

theorem extends_record (w : World σ) (t : Traffic) :
    w.Extends (w.record t) t.request?.toList := by
  refine ⟨Eq.refl _, [t], Eq.refl _, ?_⟩
  cases h : t.request? <;> simp [h]

theorem Extends.requestsUpTo (h : w.Extends w' requests) : w.requestsUpTo w' = requests := by
  obtain ⟨seen, ht, rfl⟩ := h.traffic
  rw [World.requestsUpTo, ht, List.drop_left]

theorem takeNotes_extends (server : String) (notes : List (Nat × ServerNote)) (w : World σ) :
    w.Extends (takeNotes server w notes).1 [] := by
  induction notes generalizing w with
  | nil => exact .rfl
  | cons n rest ih =>
    obtain ⟨moment, note⟩ := n
    simp only [takeNotes]
    split
    · have told : w.Extends { w with core := (w.core.serverNotification note.method
          note.params).1 } [] := .of_eq rfl rfl
      exact (told.trans (extends_record _ _)).trans (ih _)
    · exact .rfl

theorem launch_extends (c : Collaborators σ) (w : World σ) (s : Server) (method : String)
    (params : Json) (timeout : Nat) :
    w.Extends (w.launch c s method params timeout).1 [(s.name, method, params)] := by
  have asked : w.Extends
      { w with outside := (c.request w.outside s.endpoint method params).1 } [] := .of_eq rfl rfl
  exact (asked.trans (extends_record _ (.request s.name method params))).trans
    (takeNotes_extends ..)

/-- The task for a server sends one request, and none if there is no such task. -/
theorem depart_extends {α : Type} (c : Collaborators σ) (method : String) (params : Json)
    (w : World σ) (server : String) (f : FanOut α) :
    w.Extends (w.depart c method params server f).1
      ((f.grounded.find? (·.name = server)).toList.map fun s => (s.name, method, params)) := by
  unfold depart
  split
  · next none =>
    rw [none]
    exact .rfl
  · next s found =>
    rw [found]
    exact launch_extends c w s method params f.timeout

theorem fly_extends (shape : Shape) (flights : List Flight) (w : World σ) :
    w.Extends (fly shape w flights).1 [] := by
  induction flights generalizing w with
  | nil => exact .rfl
  | cons f rest ih =>
    have taken := takeNotes_extends f.server f.notes w
    simp only [fly]
    split
    · exact taken.trans (ih _)
    · exact taken.trans (ih _)

/-- Looking at an operation that waits asks nobody anything. -/
theorem resume_extends (w : World σ) (cancelled : Bool) (o : Op) (pending : o.Pending) :
    w.Extends (w.resume cancelled o pending).1 [] := by
  cases o with
  | classify | mapRanges | remapEdits | documentContext | synchronize => exact .rfl
  | askFirst shape | askAll shape | ask shape =>
    simp only [resume]
    split
    · exact .rfl
    · exact fly_extends shape _ w
  | _ => exact pending.elim

/-- Looking at an operation lets no task that it has spawned have its turn. -/
theorem grounded_of_resume {w w' : World σ} {cancelled : Bool} {o : Op}
    {pending pending' : o.Pending} (h : w.resume cancelled o pending = (w', .waiting pending')) :
    grounded o pending' = grounded o pending := by
  cases o with
  | askFirst | askAll | ask =>
    simp only [resume] at h
    split at h
    · cases h
    · simp only [Prod.mk.injEq] at h
      obtain ⟨-, h⟩ := h
      split at h
      · cases h
      · cases h
        rfl
  | _ => rfl

end World

/-- The method and parameters with which an operation asks servers. -/
def Op.request? : Op → Option (String × Json)
  | .askFirst _ method _ (.ok params) | .askAll _ method _ (.ok params)
  | .ask _ method _ (.ok params) => some (method, params)
  | _ => none

/-- The listeners that an operation stops. -/
def Op.stops : Op → List Nat
  | .stopListening id => [id]
  | _ => []

/-- The listener that a call has registered. -/
def Call.listener? : Call σ → Option Nat
  | ⟨.listen, _, _, some (id, _)⟩ => some id
  | _ => none

/-- A rule that forbids to stop listeners that other requests have registered. -/
def StopsOwn (calls : List (Call σ)) (o : Op) : Prop :=
  ∀ id ∈ o.stops, ∃ k ∈ calls, k.listener? = some id

namespace World

/-- Tasks that an operation has spawned send what it asks, and nothing else. -/
theorem release_extends (c : Collaborators σ) (w : World σ) (server : String) (o : Op)
    (pending : o.Pending) :
    ∃ requests, w.Extends (w.release c server o pending).1 requests ∧
      ∀ x ∈ requests, o.request? = some x.2 := by
  cases o with
  | askFirst _ _ _ params | askAll _ _ _ params | ask _ _ _ params =>
    cases params with
    | error => exact ⟨[], .rfl, nofun⟩
    | ok => exact ⟨_, depart_extends .., by simp [Op.request?]⟩
  | _ => exact ⟨[], .rfl, nofun⟩

/-- Servers receive in a turn what is asked of them, and nothing else. -/
theorem turn_extends (c : Collaborators σ) (w : World σ) (cancelled : Bool) (o : Op)
    (pending : o.Pending) (turn : Turn) :
    ∃ requests, w.Extends (w.turn c cancelled o pending turn).1 requests ∧
      ∀ x ∈ requests, o.request? = some x.2 := by
  cases turn with
  | own => exact ⟨[], w.resume_extends cancelled o pending, nofun⟩
  | release server => exact w.release_extends c server o pending

/-- Asking a service, whose state may change, and looking at its answer. -/
theorem service_extends (w : World σ) (outside : σ) {t : Traffic} (ht : t.request? = none)
    (cancelled : Bool) (o : Op) (pending : o.Pending) :
    w.Extends (({ w with outside }.record t).resume cancelled o pending).1 [] := by
  have asked : w.Extends { w with outside } [] := .of_eq rfl rfl
  have recorded := extends_record { w with outside } t
  rw [ht] at recorded
  exact (asked.trans recorded).trans (resume_extends ..)

/-- Servers receive what an operation asks of them, and nothing else. -/
theorem start_extends (c : Collaborators σ) (w : World σ) (cancelled : Bool) (o : Op) :
    ∃ requests, w.Extends (w.start c cancelled o).1 requests ∧
      ∀ x ∈ requests, o.request? = some x.2 := by
  cases o with
  | remember | listen | stopListening => exact ⟨[], .of_eq rfl rfl, nofun⟩
  | classify | mapRanges | remapEdits =>
    simp only [start]
    split
    · exact ⟨[], .rfl, nofun⟩
    · exact ⟨[], service_extends w _ rfl .., nofun⟩
  | documentContext host =>
    simp only [start]
    split
    · exact ⟨[], .of_eq rfl rfl, nofun⟩
    · exact ⟨[], service_extends w _ rfl .., nofun⟩
  | synchronize expected document =>
    have begun : w.Extends { w with core := { w.core with synchronizer :=
      (w.core.synchronizer.begin w.core.store w.now expected document).1 } } [] := .of_eq rfl rfl
    simp only [start]
    split
    · exact ⟨[], begun, nofun⟩
    · exact ⟨[], begun.trans (resume_extends ..), nofun⟩
  | askFirst | askAll =>
    simp only [start]
    split
    · exact ⟨[], .rfl, nofun⟩
    · split
      · exact ⟨[], .rfl, nofun⟩
      · exact ⟨[], .rfl, nofun⟩
  | ask =>
    simp only [start]
    split
    · exact ⟨[], .rfl, nofun⟩
    · split
      · exact ⟨[], .rfl, nofun⟩
      · split
        · exact ⟨[], .rfl, nofun⟩
        · exact ⟨_, (launch_extends ..).trans (resume_extends ..), by simp [Op.request?]⟩
  | _ => exact ⟨[], .rfl, nofun⟩

end World

/-! ## Genuine answers -/

/-- How a wait for a document to reflect a host version may end: with a document of the same name
that reflects the version, the very document that was given or one that was published under the
opening that was in force when the wait began. -/
structure Synchronized (asked answered : Moment σ) (expected : Int) (d s : VirtualSnapshot) :
    Prop where
  uri : s.uri = d.uri
  version : ∃ v, s.hostVersion = some v ∧ expected ≤ v
  origin : s = d ∨ ∃ number, Store.opening? d.host asked.edits = some number ∧
    Store.Published answered.edits number s

def Op.Answers (c : Collaborators σ) (asked answered : Moment σ) : (o : Op) → o.Result → Prop
  | .host url, r => answered = asked ∧ r = asked.store.get? url
  | .hostVersion url, r => answered = asked ∧ r = asked.store.hostVersion? url
  | .resolveVirtual url, r => answered = asked ∧ r = asked.store.resolve? url
  | .classify url position, r =>
    ∀ a, r = some a → a = (c.classify asked.world.outside url position).2.value
  | .mapRanges language url ranges, r =>
    ∀ a, r = some a → a = (c.mapRanges asked.world.outside language url ranges).2.value
  | .remapEdits language url edits options snippet, r =>
    ∀ a, r = some a →
      a = (c.remapEdits asked.world.outside language url edits options snippet).2.value
  | .synchronize expected d, r => ∀ s, r = some s → Synchronized asked answered expected d s
  | _, _ => True

/-- What is kept about an operation that waits fits what was asked. -/
def Op.Awaits (c : Collaborators σ) (asked : Moment σ) : (o : Op) → o.Pending → Prop
  | .classify url position, p =>
    p.value = (c.classify asked.world.outside url position).2.value
  | .mapRanges language url ranges, p =>
    p.value = (c.mapRanges asked.world.outside language url ranges).2.value
  | .remapEdits language url edits options snippet, p =>
    p.value = (c.remapEdits asked.world.outside language url edits options snippet).2.value
  | .synchronize expected d, w =>
    w.expected = expected ∧ w.language = d.language ∧
      Store.opening? d.host asked.edits = some w.opening
  | _, _ => True

/-- A call whose answer can be trusted, between two moments whose stores have a history. -/
structure Call.Genuine (c : Collaborators σ) (k : Call σ) : Prop where
  asked : k.asked.Sound
  answered : k.answered.Sound
  order : k.asked.edits <:+ k.answered.edits
  answers : k.op.Answers c k.asked k.answered k.result

theorem VirtualSnapshot.version_of_isSynchronizedWith {d : VirtualSnapshot} {expected : Int}
    (h : d.isSynchronizedWith expected = true) : ∃ v, d.hostVersion = some v ∧ expected ≤ v := by
  unfold VirtualSnapshot.isSynchronizedWith at h
  split at h
  · next v hv => exact ⟨v, hv, of_decide_eq_true h⟩
  · cases h

theorem Synchronizer.publication_of_verdict {s : Synchronizer} {store : Store} {now : Nat}
    {cancelled : Bool} {w : SyncWait} {d : VirtualSnapshot}
    (h : s.verdict store now cancelled w = .synchronized d) :
    ∃ p, store.publication? w.opening w.language = some p ∧ p.latest = d ∧
      d.isSynchronizedWith w.expected = true := by
  unfold Synchronizer.verdict at h
  split at h
  · cases h
  · split at h
    · cases h
    · split at h
      · cases h
      · next p hp =>
        split at h
        · next hs =>
          cases h
          exact ⟨p, hp, rfl, hs⟩
        · split at h
          · cases h
          · split at h <;> cases h

/-- A wait that ends well ends with a document of the opening it follows. -/
theorem synchronized_of_verdict {asked : Moment σ} {m : Moment σ} (hm : m.Sound)
    (order : asked.edits <:+ m.edits) {expected : Int} {d s : VirtualSnapshot} {w : SyncWait}
    (hw : (Op.synchronize expected d).Awaits c asked w) {y : Synchronizer} {now : Nat}
    {cancelled : Bool} (h : y.verdict m.store now cancelled w = .synchronized s) :
    Synchronized asked m expected d s := by
  obtain ⟨he, hl, ho⟩ := hw
  obtain ⟨p, hp, rfl, hs⟩ := Synchronizer.publication_of_verdict h
  obtain ⟨v, hv, hev⟩ := VirtualSnapshot.version_of_isSynchronizedWith hs
  rw [hm] at hp
  obtain ⟨hn, hlang, hpub⟩ := Store.published_of_publication? hp
  -- the number of the opening that was in force at the start still means the same host
  have hhost : p.latest.host = d.host := by
    obtain ⟨later, hlater⟩ := order
    have := Store.openings_getElem?_append (Store.openings_getElem?_of_opening? ho) later
    rw [hlater, hn] at this
    exact Option.some.inj this
  refine ⟨VirtualUri.eq_of_host_language hhost (hlang.trans hl), ⟨v, hv, he ▸ hev⟩, .inr ?_⟩
  exact ⟨w.opening, ho, hpub (by simp [hv])⟩

namespace World

variable {asked m : Moment σ} {w' : World σ} {cancelled : Bool} {o : Op}

theorem resume_waiting {w : World σ} {pending pending' : o.Pending}
    (h : w.resume cancelled o pending = (w', .waiting pending'))
    (hw : o.Awaits c asked pending) : o.Awaits c asked pending' := by
  cases o with
  | classify | mapRanges | remapEdits =>
    simp only [resume, Prod.mk.injEq] at h
    obtain ⟨-, h⟩ := h
    split at h
    · cases h
    · split at h
      · cases h
      · cases h
        exact hw
  | synchronize =>
    simp only [resume, Prod.mk.injEq] at h
    obtain ⟨-, h⟩ := h
    split at h
    · cases h
      exact hw
    · cases h
    · cases h
  | documentContext | askFirst | askAll | ask => trivial
  | _ => exact pending.elim

/-- Whenever an operation that waits answers, its answer is genuine. -/
theorem resume_answered {w : World σ} {edits : List Store.Event} {pending : o.Pending}
    {r : o.Result} (h : w.resume cancelled o pending = (w', .answered r)) (ha : asked.Sound)
    (hm : w.core.store = Store.after edits) (order : asked.edits <:+ edits)
    (hw : o.Awaits c asked pending) : Call.Genuine c ⟨o, asked, ⟨w', edits⟩, r⟩ := by
  have hs : w'.core.store = w.core.store := by
    have := (resume_extends w cancelled o pending).store
    rwa [h] at this
  refine ⟨ha, hs.trans hm, order, ?_⟩
  cases o with
  | classify | mapRanges | remapEdits =>
    intro a hr
    simp only [resume, Prod.mk.injEq] at h
    obtain ⟨-, h⟩ := h
    subst hr
    split at h
    · cases h
    · split at h
      · cases h
        exact hw
      · cases h
  | synchronize expected d =>
    intro s hr
    simp only [resume, Prod.mk.injEq] at h
    obtain ⟨rfl, h⟩ := h
    subst hr
    split at h
    · cases h
    · next hv =>
      cases h
      exact synchronized_of_verdict (m := ⟨w, edits⟩) hm order hw hv
    · cases h
  | documentContext | askFirst | askAll | ask => trivial
  | _ => exact pending.elim

theorem turn_waiting {w : World σ} {pending pending' : o.Pending} {turn : Turn}
    (h : w.turn c cancelled o pending turn = (w', .waiting pending'))
    (hw : o.Awaits c asked pending) : o.Awaits c asked pending' := by
  cases turn with
  | own => exact resume_waiting h hw
  | release server =>
    simp only [turn, Prod.mk.injEq, Op.Progress.waiting.injEq] at h
    obtain ⟨-, rfl⟩ := h
    cases o with
    | askFirst | askAll | ask => trivial
    | _ => exact hw

/-- Whenever an operation that waits answers in a turn, its answer is genuine. -/
theorem turn_answered {w : World σ} {edits : List Store.Event} {pending : o.Pending}
    {r : o.Result} {turn : Turn} (h : w.turn c cancelled o pending turn = (w', .answered r))
    (ha : asked.Sound) (hm : w.core.store = Store.after edits) (order : asked.edits <:+ edits)
    (hw : o.Awaits c asked pending) : Call.Genuine c ⟨o, asked, ⟨w', edits⟩, r⟩ := by
  cases turn with
  | own => exact resume_answered h ha hm order hw
  | release server => cases h

/-- How a wait begins: the document is good enough already, its host is not open, or the opening in
force is followed. -/
theorem begin_cases {expected : Int} {d : VirtualSnapshot} {y y' : Synchronizer} {now : Nat}
    {outcome : Sum (Option VirtualSnapshot) SyncWait} (hm : m.Sound)
    (h : y.begin m.store now expected d = (y', outcome)) :
    (outcome = .inl (some d) ∧ d.isSynchronizedWith expected = true) ∨ outcome = .inl none ∨
      ∃ w, outcome = .inr w ∧ (Op.synchronize expected d).Awaits c m w := by
  unfold Synchronizer.begin at h
  split at h
  · next hs =>
    cases h
    exact .inl ⟨rfl, hs⟩
  · split at h
    · cases h
      exact .inr (.inl rfl)
    · next number hn =>
      cases h
      rw [hm] at hn
      exact .inr (.inr ⟨_, rfl, rfl, rfl, Store.opening?_of_subscribe? hn⟩)

theorem start_answered {r : o.Result} (hm : m.Sound)
    (h : m.world.start c cancelled o = (w', .answered r)) :
    Call.Genuine c ⟨o, m, ⟨w', m.edits⟩, r⟩ := by
  have hs : w'.core.store = m.world.core.store := by
    obtain ⟨requests, he, -⟩ := start_extends c m.world cancelled o
    rw [h] at he
    exact he.store
  cases o with
  | host | hostVersion | resolveVirtual =>
    cases h
    exact ⟨hm, hm, List.suffix_rfl, rfl, rfl⟩
  | classify | mapRanges | remapEdits =>
    simp only [start] at h
    split at h
    · cases h
      exact ⟨hm, hm, List.suffix_rfl, nofun⟩
    · exact resume_answered h hm hm List.suffix_rfl rfl
  | synchronize expected d =>
    rcases hb : m.world.core.synchronizer.begin m.world.core.store m.world.now expected d with
      ⟨y, outcome⟩
    simp only [start, hb] at h
    rcases begin_cases (c := c) hm hb with ⟨rfl, hd⟩ | rfl | ⟨w, rfl, hw⟩
    · cases h
      refine ⟨hm, hm, List.suffix_rfl, ?_⟩
      rintro s ⟨⟩
      exact ⟨rfl, VirtualSnapshot.version_of_isSynchronizedWith hd, .inl rfl⟩
    · cases h
      refine ⟨hm, hm, List.suffix_rfl, ?_⟩
      rintro s ⟨⟩
    · exact resume_answered h hm hm List.suffix_rfl hw
  | _ => exact ⟨hm, hs.trans hm, List.suffix_rfl, trivial⟩

/-- An operation that cannot answer at once waits for what was asked. -/
theorem start_waiting {pending : o.Pending} (hm : m.Sound)
    (h : m.world.start c cancelled o = (w', .waiting pending)) : o.Awaits c m pending := by
  cases o with
  | classify | mapRanges | remapEdits =>
    simp only [start] at h
    split at h
    · cases h
    · exact resume_waiting h rfl
  | synchronize expected d =>
    rcases hb : m.world.core.synchronizer.begin m.world.core.store m.world.now expected d with
      ⟨y, outcome⟩
    simp only [start, hb] at h
    rcases begin_cases (c := c) hm hb with ⟨rfl, -⟩ | rfl | ⟨w, rfl, hw⟩
    · cases h
    · cases h
    · exact resume_waiting h hw
  | documentContext | askFirst | askAll | ask => trivial
  | _ => exact pending.elim

end World

end PolyglotLsp
