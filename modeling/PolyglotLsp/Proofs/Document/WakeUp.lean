import PolyglotLsp.Proofs.Document.Publication
import PolyglotLsp.Proofs.Document.WaitingRoom
import PolyglotLsp.Scenario.Sample

/-!
# No wake-up is lost

What a call that waits finds when it looks depends on the history alone (`Call.verdict_cases`). It
gives up if it is cancelled or has been rejected, that is, superseded under a setting that makes
superseded calls give up. Otherwise it ends with a document as soon as one regeneration that was
accepted under the opening it follows reflects the version it expects, whenever that was accepted:
before the call, between its subscription and its request, or later. Only if there is no such
regeneration does the end of the opening or of the time make it give up.

Along a history a call changes only when it registers and when it looks (`getElem?_step`), so that
every outcome goes back to one look (`Call.exists_followed`).
-/

namespace PolyglotLsp

namespace WaitingRoom

/-! ## What an event does to one call -/

/-- A call that has seen the store begins to wait, or ends at once. -/
def begun (r : WaitingRoom) (w : Waiter) : Waiter :=
  match w.stage with
  | .called store =>
    let outcome := (r.synchronizer.begin store r.now w.expected w.document).2
    { w with stage := outcome.elim .ended .waiting }
  | .waiting _ | .ended _ => w

def next (r : WaitingRoom) (place : Nat) (w : Waiter) : Event → Waiter
  | .cancelled place' => if place' = place then { w with cancelled := true } else w
  | .registered place' => if place' = place then r.begun w else w
  | .looked place' => if place' = place then r.look w else w
  | .stored _ | .forgot _ | .timeoutSet _ | .rejectsSet _ | .passed _ | .called .. => w

theorem begun_eq (r : WaitingRoom) (w : Waiter) :
    r.begun w = { w with stage := (r.begun w).stage } := by
  unfold begun
  split <;> rfl

theorem look_eq (r : WaitingRoom) (w : Waiter) :
    r.look w = { w with stage := (r.look w).stage } := by
  unfold look
  split
  · rfl
  · rfl
  · split <;> rfl

theorem getElem?_register {r : WaitingRoom} {place : Nat} {w : Waiter}
    (h : r.waiters[place]? = some w) (place' : Nat) :
    (r.register place').waiters[place]? =
      some (if place' = place then r.begun w else w) := by
  unfold register
  by_cases same : place' = place
  · subst same
    rw [if_pos rfl]
    cases hs : w.stage with
    | called store => simp [caller?_eq_some h hs, h, begun, hs]
    | waiting wait => simp [caller?, h, begun, hs]
    | ended outcome => simp [caller?, h, begun, hs]
  · rw [if_neg same]
    split
    · exact h
    · simp [same, h]

/-- A call changes only when it is cancelled, when it registers and when it looks. -/
theorem getElem?_step {r : WaitingRoom} {place : Nat} {w : Waiter} (h : r.waiters[place]? = some w)
    (e : Event) : (r.step e).waiters[place]? = some (r.next place w e) := by
  cases e with
  | called expected d cancelled =>
    have bound := (List.getElem?_eq_some_iff.1 h).1
    simp only [step, next]
    rw [List.getElem?_append_left bound, h]
  | registered place' => exact getElem?_register h place'
  | cancelled place' | looked place' =>
    by_cases same : place' = place
    · simp [step, next, same, h]
    · simp [step, next, same, h]
  | stored | forgot | timeoutSet | rejectsSet | passed => exact h

/-! ## The history of one call -/

/-- A call, with what happened before it. -/
structure Call where
  expected : Int
  document : VirtualSnapshot
  cancelled : Bool
  earlier : List Event

namespace Call

variable (k : Call)

/-- Its place among the calls. -/
def place : Nat := (after k.earlier).waiters.length

/-- The whole history, given what happened since the call. -/
def history (during : List Event) : List Event :=
  during ++ .called k.expected k.document k.cancelled :: k.earlier

/-- The outcome of the call if it has ended. -/
def outcome? (during : List Event) : Option (Option VirtualSnapshot) :=
  (after (k.history during)).waiters[k.place]?.bind (·.stage.outcome?)

/-- The call waits. -/
def Waiting (during : List Event) : Prop :=
  (after (k.history during)).waiters[k.place]?.any (·.stage.isWaiting) = true

/-- The host was open when the call was made. -/
def Open : Prop := ((after k.earlier).store.get? k.document.host).isSome

/-- The call was cancelled before it was made or since. -/
def Cancelled (during : List Event) : Prop :=
  k.cancelled = true ∨ .cancelled k.place ∈ during

/-- When the call registered, superseded calls were to give up, and it has been superseded since:
the record of its document was forgotten, or some call registered a newer version of the document
since the record was last forgotten. -/
def Rejected (seen between : List Event) : Prop :=
  (after (k.history between)).synchronizer.rejects = true ∧
    (ForgottenIn k.document.url seen ∨
      ∃ v ∈ requested k.document.url (k.history (seen ++ .registered k.place :: between)),
        k.expected < v)

/-- A regeneration of the call's document to the version it expects, or a newer one, was accepted
under the opening that was in force at the call. -/
def Regenerated (during : List Event) : Prop :=
  ∃ opening s, Store.opening? k.document.host (edits k.earlier) = some opening ∧
    Store.Published (edits (k.history during)) opening s ∧ s.language = k.document.language ∧
    s.isSynchronizedWith k.expected = true

/-- The host was closed or opened again since the call. -/
def Interrupted (during : List Event) : Prop :=
  ∃ e ∈ edits during, Store.Interrupts k.document.host e

/-- The time that was allowed when the call registered is over. -/
def TimedOut (seen between : List Event) : Prop :=
  (after (k.history between)).now + (after (k.history between)).synchronizer.timeout ≤
    (after (k.history (seen ++ .registered k.place :: between))).now

theorem history_append (later during : List Event) :
    k.history (later ++ during) = later ++ k.history during :=
  List.append_assoc ..

theorem edits_history (during : List Event) :
    edits (k.history during) = edits during ++ edits k.earlier :=
  edits_append during (.called k.expected k.document k.cancelled :: k.earlier)

variable {k}

/-! ## What a look finds -/

/-- The wait of a call that registered after some events. -/
structure Registration (k : Call) (between : List Event) (wait : SyncWait) : Prop where
  first : .registered k.place ∉ between
  subscribed : ∃ w store opening, (after (k.history between)).caller? k.place = some (w, store) ∧
    w.Waits store ∧ w.expected = k.expected ∧ w.document = k.document ∧
    Store.opening? k.document.host (edits k.earlier) = some opening ∧
    wait = (after (k.history between)).waitOf w opening

theorem rejected_iff {between : List Event} {wait : SyncWait} (h : Registration k between wait)
    (seen : List Event) {room : WaitingRoom}
    (hr : room = after (k.history (seen ++ .registered k.place :: between))) :
    (wait.rejects && room.synchronizer.supersedes wait) = true ↔ k.Rejected seen between := by
  subst hr
  obtain ⟨w, store, opening, hc, waits, expected, document, -, rfl⟩ := h.subscribed
  have superseded := supersedes_iff hc waits opening seen
  rw [expected, document] at superseded
  rw [Bool.and_eq_true, Rejected, history_append]
  exact and_congr Iff.rfl superseded

/-- What the call sees of the document it follows. -/
theorem exists_publication {opening : Nat}
    (ho : Store.opening? k.document.host (edits k.earlier) = some opening) (during : List Event) :
    ∃ p, (after (k.history during)).store.publication? opening k.document.language = some p ∧
      (p.live = true ↔ ¬ k.Interrupted during) ∧
      (p.latest.isSynchronizedWith k.expected = true ↔ k.Regenerated during) := by
  have numbered : (Store.openings (edits (k.history during)))[opening]? = some k.document.host := by
    rw [edits_history]
    exact Store.openings_getElem?_append (Store.openings_getElem?_of_opening? ho) _
  obtain ⟨p, hp, live, reflects⟩ :=
    Store.publication?_spec numbered (Store.language_mem_embedded k.document.uri)
  refine ⟨p, by rw [store_after]; exact hp, ?_, ?_⟩
  · rw [live, edits_history, Store.opening?_append_iff ho, Interrupted]
  · rw [reflects]
    constructor
    · rintro ⟨s, hs, hl, hv⟩
      exact ⟨opening, s, ho, hs, hl, hv⟩
    · rintro ⟨opening', s, ho', hs, hl, hv⟩
      rw [ho] at ho'
      cases ho'
      exact ⟨s, hs, hl, hv⟩

/-- A call that is neither cancelled nor rejected looks at its document first, and at the clock
last. -/
theorem verdict_of_publication {y : Synchronizer} {store : Store} (now : Nat) {wait : SyncWait}
    {p : Publication} (hj : (wait.rejects && y.supersedes wait) = false)
    (hp : store.publication? wait.opening wait.language = some p) :
    y.verdict store now false wait =
      if p.latest.isSynchronizedWith wait.expected then .synchronized p.latest
      else if p.live = false ∨ wait.deadline ≤ now then .gaveUp
      else .waiting := by
  cases hl : p.live <;> simp [Synchronizer.verdict, hj, hp, hl]

/-- What a call finds when it looks. -/
theorem verdict_cases {between : List Event} {wait : SyncWait} (h : Registration k between wait)
    {seen during : List Event} (hd : during = seen ++ .registered k.place :: between)
    {room : WaitingRoom} (hr : room = after (k.history during)) (cancelled : Bool) :
    (room.synchronizer.verdict room.store room.now cancelled wait = .gaveUp ∧
      (cancelled = true ∨ k.Rejected seen between ∨
        ¬ k.Regenerated during ∧ (k.Interrupted during ∨ k.TimedOut seen between))) ∨
    (∃ s, room.synchronizer.verdict room.store room.now cancelled wait = .synchronized s ∧
      s.isSynchronizedWith k.expected = true ∧
      cancelled = false ∧ ¬ k.Rejected seen between ∧ k.Regenerated during) ∨
    (room.synchronizer.verdict room.store room.now cancelled wait = .waiting ∧
      cancelled = false ∧ ¬ k.Rejected seen between ∧ ¬ k.Regenerated during ∧
      ¬ k.Interrupted during ∧ ¬ k.TimedOut seen between) := by
  -- the cases come in the order in which a call asks: cancelled, rejected, the document, the time
  have rejected := rejected_iff h seen (hd ▸ hr)
  cases cancelled with
  | true => exact .inl ⟨by simp [Synchronizer.verdict], .inl rfl⟩
  | false =>
    by_cases hj : k.Rejected seen between
    · exact .inl ⟨by simp [Synchronizer.verdict, rejected.2 hj], .inr (.inl hj)⟩
    · have hj' := Bool.eq_false_iff.2 (mt rejected.1 hj)
      obtain ⟨w, store, opening, -, -, expected, document, ho, hw⟩ := h.subscribed
      obtain ⟨p, hp, live, regenerated⟩ := exists_publication ho during
      have found : room.store.publication? wait.opening wait.language = some p := by
        rw [hr, hw, ← hp, waitOf, document]
      have deadline : wait.deadline ≤ room.now ↔ k.TimedOut seen between := by
        rw [TimedOut, ← hd, hr, hw, waitOf]
      have version : wait.expected = k.expected := by rw [hw, ← expected, waitOf]
      rw [verdict_of_publication room.now hj' found, version]
      by_cases hs : p.latest.isSynchronizedWith k.expected = true
      · exact .inr (.inl ⟨p.latest, if_pos hs, hs, rfl, hj, regenerated.1 hs⟩)
      · have stale := mt regenerated.2 hs
        rw [if_neg hs]
        by_cases done : p.live = false ∨ wait.deadline ≤ room.now
        · have excuse : k.Interrupted during ∨ k.TimedOut seen between := by
            refine done.imp (fun hl => ?_) deadline.1
            by_contra hi
            rw [live.2 hi] at hl
            cases hl
          exact .inl ⟨if_pos done, .inr (.inr ⟨stale, excuse⟩)⟩
        · have going : ¬ k.Interrupted during := live.1 (by simpa using (not_or.1 done).1)
          exact .inr (.inr ⟨if_neg done, rfl, hj, stale, going, mt deadline.2 (not_or.1 done).2⟩)

/-! ## What leads to an outcome -/

/-- Why a call may give up when it looks. -/
def Excused (k : Call) (seen between : List Event) : Prop :=
  k.Cancelled (seen ++ .registered k.place :: between) ∨ k.Rejected seen between ∨
    ¬ k.Regenerated (seen ++ .registered k.place :: between) ∧
      (k.Interrupted (seen ++ .registered k.place :: between) ∨ k.TimedOut seen between)

/-- What has led to a stage of the call. -/
def Story (k : Call) (during : List Event) : WaitStage → Prop
  | .called store => store = (after k.earlier).store ∧ .registered k.place ∉ during
  | .waiting wait => ∃ seen between, during = seen ++ .registered k.place :: between ∧
      Registration k between wait
  | .ended none => ∃ later seen between,
      during = later ++ .looked k.place :: (seen ++ .registered k.place :: between) ∧
      .registered k.place ∉ between ∧ k.Excused seen between
  | .ended (some _) => True

/-- The call as it is kept in the room. -/
structure Followed (k : Call) (during : List Event) (w : Waiter) : Prop where
  expected : w.expected = k.expected
  document : w.document = k.document
  cancelled : w.cancelled = true ↔ k.Cancelled during
  stage : k.Story during w.stage

theorem Story.later {during : List Event} {stage : WaitStage} (h : k.Story during stage)
    {e : Event} (he : e = .registered k.place → ∀ store, stage ≠ .called store) :
    k.Story (e :: during) stage := by
  cases stage with
  | called store =>
    refine ⟨h.1, fun hm => ?_⟩
    rcases List.mem_cons.1 hm with here | before
    · exact he here.symm store rfl
    · exact h.2 before
  | waiting wait =>
    obtain ⟨seen, between, rfl, registration⟩ := h
    exact ⟨e :: seen, between, rfl, registration⟩
  | ended outcome =>
    cases outcome with
    | none =>
      obtain ⟨later, seen, between, rfl, first, excused⟩ := h
      exact ⟨e :: later, seen, between, rfl, first, excused⟩
    | some s => trivial

/-- A call on an open document subscribes to the opening in force. -/
theorem exists_subscribe? (hopen : k.Open) :
    ∃ opening, (after k.earlier).store.subscribe? k.document.host k.document.language =
        some opening ∧
      Store.opening? k.document.host (edits k.earlier) = some opening := by
  rw [Open, store_after] at hopen
  obtain ⟨_, hs⟩ := Option.isSome_iff_exists.1 hopen
  obtain ⟨o, ho, -⟩ := Option.map_eq_some_iff.1 hs
  obtain ⟨d, hd, -⟩ := Store.exists_virtual? hopen (Store.language_mem_embedded k.document.uri)
  have hd : o.virtual? k.document.uri.language = some d := by
    simpa [Store.virtual?, ho] using hd
  have subscribed : (after k.earlier).store.subscribe? k.document.host k.document.language =
      some o.number := by
    simp [store_after, Store.subscribe?, ho, VirtualSnapshot.language, hd]
  exact ⟨o.number, subscribed, Store.opening?_of_subscribe? (by rwa [store_after] at subscribed)⟩

/-- Registering begins the wait, or ends the call with the document that does already. -/
theorem Followed.begun {during : List Event} {w : Waiter} (h : k.Followed during w)
    (hopen : k.Open) (hw : (after (k.history during)).waiters[k.place]? = some w) :
    k.Story (.registered k.place :: during) ((after (k.history during)).begun w).stage := by
  have story := h.stage
  unfold WaitingRoom.begun
  cases hs : w.stage with
  | called store =>
    rw [hs] at story
    obtain ⟨rfl, first⟩ := story
    obtain ⟨opening, subscribed, ho⟩ := exists_subscribe? hopen
    rw [← h.document] at subscribed
    -- the host is open in the store that the call has seen, so that it does not end for want of it
    by_cases stale : w.document.isSynchronizedWith w.expected = false
    · have waits : w.Waits (after k.earlier).store := ⟨stale, by simp [subscribed]⟩
      simp only [begin_of_subscribed _ stale subscribed, Sum.elim_inr]
      exact ⟨[], during, rfl, first, w, _, opening, caller?_eq_some hw hs, waits, h.expected,
        h.document, ho, rfl⟩
    · have waits : ¬ w.Waits (after k.earlier).store := fun waits => stale waits.1
      simp only [begin_of_not_waits _ waits, Sum.elim_inl, if_pos (Bool.not_eq_false _ ▸ stale)]
      trivial
  | waiting wait | ended outcome =>
    rw [hs] at story
    simp only [hs]
    exact story.later fun _ store => nofun

/-- If nothing speaks against it, a call that waits ends with a document when it looks. -/
theorem Followed.woken {during : List Event} {w : Waiter} (h : k.Followed during w)
    {wait : SyncWait} (hs : w.stage = .waiting wait) {seen between : List Event}
    (hd : during = seen ++ .registered k.place :: between)
    (registration : Registration k between wait) (going : ¬ k.Cancelled during)
    (accepted : ¬ k.Rejected seen between) (regenerated : k.Regenerated during) :
    ∃ s, ((after (k.history during)).look w).stage = .ended (some s) ∧
      s.isSynchronizedWith k.expected = true := by
  rcases verdict_cases registration hd rfl w.cancelled with
    ⟨-, cancelled | rejected | ⟨stale, -⟩⟩ | ⟨s, hv, version, -⟩ | ⟨-, -, -, stale, -⟩
  · exact absurd (h.cancelled.1 cancelled) going
  · exact absurd rejected accepted
  · exact absurd regenerated stale
  · refine ⟨s, ?_, version⟩
    simp only [WaitingRoom.look, hs, hv]
  · exact absurd regenerated stale

/-- A look leaves the call as it is, or ends it for a reason. -/
theorem Followed.look {during : List Event} {w : Waiter} (h : k.Followed during w) :
    k.Story (.looked k.place :: during) ((after (k.history during)).look w).stage := by
  have story := h.stage
  unfold WaitingRoom.look
  cases hs : w.stage with
  | waiting wait =>
    rw [hs] at story
    obtain ⟨seen, between, hd, registration⟩ := story
    rcases verdict_cases registration hd rfl w.cancelled with
      ⟨hv, reason⟩ | ⟨s, hv, -⟩ | ⟨hv, -⟩
    · simp only [hv]
      refine ⟨[], seen, between, by rw [hd, List.nil_append], registration.first, ?_⟩
      rw [Excused, ← hd, ← h.cancelled]
      exact reason
    · simp only [hv]
      trivial
    · simp only [hv, hs]
      exact ⟨.looked k.place :: seen, between, by rw [hd, List.cons_append], registration⟩
  | called store | ended outcome =>
    rw [hs] at story
    simp only [hs]
    exact story.later nofun

theorem cancelled_cons {during : List Event} {e : Event} (he : e ≠ .cancelled k.place) :
    k.Cancelled (e :: during) ↔ k.Cancelled during := by
  simp [Cancelled, Ne.symm he]

/-- What does not concern the call leaves it as it is. -/
theorem Followed.other {during : List Event} {w : Waiter} (h : k.Followed during w) {e : Event}
    (hc : e ≠ .cancelled k.place) (hr : e ≠ .registered k.place) : k.Followed (e :: during) w :=
  ⟨h.expected, h.document, h.cancelled.trans (cancelled_cons hc).symm,
    h.stage.later fun he => absurd he hr⟩

theorem Followed.next {during : List Event} {w : Waiter} (h : k.Followed during w)
    (hopen : k.Open) (hw : (after (k.history during)).waiters[k.place]? = some w) (e : Event) :
    k.Followed (e :: during) ((after (k.history during)).next k.place w e) := by
  cases e with
  | cancelled place =>
    by_cases same : place = k.place
    · subst same
      rw [WaitingRoom.next, if_pos rfl]
      exact ⟨h.expected, h.document, by simp [Cancelled], h.stage.later nofun⟩
    · rw [WaitingRoom.next, if_neg same]
      exact h.other (by simpa using same) nofun
  | registered place =>
    by_cases same : place = k.place
    · subst same
      rw [WaitingRoom.next, if_pos rfl, begun_eq]
      exact ⟨h.expected, h.document, h.cancelled.trans (cancelled_cons (by simp)).symm,
        h.begun hopen hw⟩
    · rw [WaitingRoom.next, if_neg same]
      exact h.other nofun (by simpa using same)
  | looked place =>
    by_cases same : place = k.place
    · subst same
      rw [WaitingRoom.next, if_pos rfl, look_eq]
      exact ⟨h.expected, h.document, h.cancelled.trans (cancelled_cons (by simp)).symm, h.look⟩
    · rw [WaitingRoom.next, if_neg same]
      exact h.other nofun nofun
  | stored | forgot | timeoutSet | rejectsSet | passed | called => exact h.other nofun nofun

/-- The call along the history. -/
theorem exists_followed (hopen : k.Open) (during : List Event) :
    ∃ w, (after (k.history during)).waiters[k.place]? = some w ∧ k.Followed during w := by
  induction during with
  | nil =>
    refine ⟨⟨k.expected, k.document, k.cancelled, .called (after k.earlier).store⟩, ?_, rfl, rfl,
      ?_, rfl, ?_⟩
    · simp [history, after, step, place]
    · simp [Cancelled]
    · simp
  | cons e during ih =>
    obtain ⟨w, hw, followed⟩ := ih
    exact ⟨_, getElem?_step hw e, followed.next hopen hw e⟩

/-- A call on an open document ends without a document only at a look at which it has an excuse. A
call that waits is not left waiting, nor ended without a document, if a sufficient regeneration was
accepted and it is neither cancelled nor rejected. -/
theorem no_lost_wakeUp (k : Call) (hopen : k.Open) (during : List Event) :
    (k.outcome? during = some none → ∃ later seen between,
      during = later ++ .looked k.place :: (seen ++ .registered k.place :: between) ∧
      .registered k.place ∉ between ∧ k.Excused seen between) ∧
    (k.Waiting during → ∃ seen between,
      during = seen ++ .registered k.place :: between ∧ .registered k.place ∉ between ∧
      (¬ k.Cancelled during → ¬ k.Rejected seen between → k.Regenerated during →
        ∃ s, k.outcome? (.looked k.place :: during) = some (some s) ∧
          s.isSynchronizedWith k.expected = true)) := by
  obtain ⟨w, hw, followed⟩ := exists_followed hopen during
  have story := followed.stage
  refine ⟨fun ended => ?_, fun waiting => ?_⟩
  · simp only [outcome?, hw, Option.bind_some] at ended
    cases hs : w.stage with
    | called | waiting => simp [hs, WaitStage.outcome?] at ended
    | ended outcome =>
      rw [hs, WaitStage.outcome?, Option.some.injEq] at ended
      rw [hs, ended] at story
      exact story
  · simp only [Waiting, hw, Option.any_some] at waiting
    cases hs : w.stage with
    | called | ended => simp [hs, WaitStage.isWaiting] at waiting
    | waiting wait =>
      rw [hs] at story
      obtain ⟨seen, between, hd, registration⟩ := story
      refine ⟨seen, between, hd, registration.first, fun going accepted regenerated => ?_⟩
      obtain ⟨s, ended, version⟩ := followed.woken hs hd registration going accepted regenerated
      have looked := getElem?_step hw (.looked k.place)
      rw [WaitingRoom.next, if_pos rfl] at looked
      have looked : (after (k.history (.looked k.place :: during))).waiters[k.place]? =
          some ((after (k.history during)).look w) := looked
      refine ⟨s, ?_, version⟩
      rw [outcome?, looked, Option.bind_some, ended, WaitStage.outcome?]

/-- A call for the sample's code, which has not been generated when the call is made. -/
def sample : Call :=
  ⟨1, .empty Scenario.Sample.codeUri, false, [.stored (.opened Scenario.Sample.hostUrl 1 "")]⟩

/-- The code is generated while the call has subscribed but not registered. -/
def sampleWoken : List Event :=
  [.registered 0, .stored (.regenerated (Scenario.Sample.regeneration 1))]

theorem regenerated_sampleWoken : sample.Regenerated sampleWoken := by
  have generated : ((Store.after (edits sample.earlier)).regenerate
      (Scenario.Sample.regeneration 1)).toOption.any
        (fun result => result.2.any fun d => d.language = .csharp && d.isSynchronizedWith 1) =
      true := by
    decide +kernel
  cases hr : (Store.after (edits sample.earlier)).regenerate (Scenario.Sample.regeneration 1) with
  | error e => simp [hr, Except.toOption] at generated
  | ok result =>
    obtain ⟨s, _ | d⟩ := result
    · simp [hr, Except.toOption] at generated
    · simp only [hr, Except.toOption, Option.any_some, Bool.and_eq_true, decide_eq_true_eq]
        at generated
      exact ⟨0, d, by decide +kernel, ⟨[], _, _, s, rfl, hr, by decide +kernel⟩, generated⟩

theorem no_lost_wakeUp_sample :
    sample.Open ∧
      (sample.outcome? [.looked 0, .passed 2000, .registered 0] = some none ∧
        ∃ later seen between, [.looked 0, .passed 2000, .registered 0] =
            later ++ .looked sample.place :: (seen ++ .registered sample.place :: between) ∧
          .registered sample.place ∉ between ∧ sample.Excused seen between) ∧
      ∃ s, sample.outcome? (.looked sample.place :: sampleWoken) = some (some s) ∧
        s.isSynchronizedWith 1 = true := by
  have opened : sample.Open := by
    unfold Open
    decide +kernel
  have timedOut : sample.outcome? [.looked 0, .passed 2000, .registered 0] = some none := by
    decide +kernel
  have waiting : sample.Waiting sampleWoken := by
    unfold Waiting
    decide +kernel
  have going : ¬ sample.Cancelled sampleWoken := by simp [Cancelled, sample, sampleWoken]
  have alone : ∀ v ∈ requested sample.document.url (sample.history sampleWoken), v ≤ 1 := by
    decide +kernel
  obtain ⟨seen, between, hd, -, woken⟩ := (no_lost_wakeUp sample opened sampleWoken).2 waiting
  refine ⟨opened, ⟨timedOut, (no_lost_wakeUp sample opened _).1 timedOut⟩,
    woken going ?_ regenerated_sampleWoken⟩
  rintro ⟨-, ⟨host, forgot, -⟩ | ⟨v, hv, newer⟩⟩
  · have forgot : .forgot host ∈ sampleWoken := hd ▸ List.mem_append_left _ forgot
    simp [sampleWoken] at forgot
  · rw [← hd] at hv
    exact absurd newer (Int.not_lt.2 (alone v hv))

end Call

end WaitingRoom

end PolyglotLsp
