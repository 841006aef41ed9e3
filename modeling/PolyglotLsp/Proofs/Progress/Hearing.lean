import PolyglotLsp.Proofs.Progress.Lifecycle

/-!
# What a listener misses

While a listener listens it has every payload that has arrived for its token since it was registered
(`Listener.Attends`). A listener that takes whole turns, and that nobody cancels, completes only
when nothing has arrived for its idle time. So it has what arrived before, and whatever it misses
arrives at least that much later than the last payload that it has (`Listener.Missed`). Each event
keeps this (`Hears.step`), and so does every run (`Hears.run`), up to the moment at which all
listeners are disposed of.
-/

namespace PolyglotLsp

/-- A payload that is offered under a token, and when. -/
structure Arrival where
  moment : Nat
  token : Token
  payload : Json

namespace Arrival

/-- The payloads that arrive for a token. -/
def payloads (token : Token) (arrivals : List Arrival) : List Json :=
  (arrivals.filter (·.token = token)).map (·.payload)

/-- The moment at which the last payload for a token arrives, or a moment before all of them. -/
def latest (token : Token) (since : Nat) (arrivals : List Arrival) : Nat :=
  ((arrivals.filter (·.token = token)).getLast?.map (·.moment)).getD since

variable {token : Token} {arrivals more : List Arrival}

theorem payloads_append (token : Token) (arrivals more : List Arrival) :
    payloads token (arrivals ++ more) = payloads token arrivals ++ payloads token more := by
  simp [payloads]

theorem latest_append_self (since : Nat) (a : Arrival) :
    latest a.token since (arrivals ++ [a]) = a.moment := by
  simp [latest]

theorem latest_append_of_ne (h : ∀ a ∈ more, a.token ≠ token) (since : Nat) :
    latest token since (arrivals ++ more) = latest token since arrivals := by
  have none : more.filter (·.token = token) = [] := by simpa using h
  simp [latest, none]

theorem payloads_eq_nil (h : ∀ a ∈ more, a.token ≠ token) : payloads token more = [] := by
  have none : more.filter (·.token = token) = [] := by simpa using h
  simp [payloads, none]

end Arrival

namespace Listener

/-- A listener that listens has all that has arrived for it since it was registered. If nothing
waits, it has been quiet at least since the last arrival. -/
structure Attends (l : Listener) (token : Token) (idle since now : Nat) (arrivals : List Arrival) :
    Prop where
  undecided : l.outcome = none
  uncancelled : l.cancelled = false
  token_eq : l.token = token
  idle_eq : l.idle = idle
  kept : l.handled ++ l.queue = Arrival.payloads token arrivals
  past : Arrival.latest token since arrivals ≤ now
  quiet : ∃ moment, moment ≤ now ∧ l.Timed moment ∧
    (l.queue = [] → Arrival.latest token since arrivals ≤ moment)

/-- A listener that has completed has what had arrived by then. The rest arrived after its idle time
was up. -/
structure Missed (l : Listener) (token : Token) (idle since now : Nat)
    (heard missed : List Arrival) : Prop where
  outcome : l.outcome = some .completed
  kept : l.handled = Arrival.payloads token heard
  expired : Arrival.latest token since heard + idle ≤ now
  late : ∀ a ∈ missed, Arrival.latest token since heard + idle ≤ a.moment

variable {l l' : Listener} {token : Token} {idle since now now' : Nat}
  {arrivals heard missed more : List Arrival}

/-- What is not for a listener leaves it as it is. -/
theorem Attends.later (h : l.Attends token idle since now arrivals) (order : now ≤ now')
    (other : ∀ a ∈ more, a.token ≠ token) :
    l.Attends token idle since now' (arrivals ++ more) := by
  obtain ⟨moment, before, timed, rested⟩ := h.quiet
  refine ⟨h.undecided, h.uncancelled, h.token_eq, h.idle_eq, ?_, ?_, moment,
    Nat.le_trans before order, timed, ?_⟩
  · rw [Arrival.payloads_append, Arrival.payloads_eq_nil other, List.append_nil, h.kept]
  · rw [Arrival.latest_append_of_ne other]
    exact Nat.le_trans h.past order
  · rwa [Arrival.latest_append_of_ne other]

theorem Attends.accept (h : l.Attends token idle since now arrivals) (order : now ≤ now')
    (payload : Json) :
    Attends { l with queue := l.queue ++ [payload] } token idle since now'
      (arrivals ++ [⟨now, token, payload⟩]) := by
  obtain ⟨moment, before, timed, -⟩ := h.quiet
  refine ⟨h.undecided, h.uncancelled, h.token_eq, h.idle_eq, ?_, ?_, moment,
    Nat.le_trans before order, timed, ?_⟩
  · rw [Arrival.payloads_append, ← h.kept]
    simp [Arrival.payloads]
  · rw [Arrival.latest_append_self since ⟨now, token, payload⟩]
    exact order
  · simp

/-- A listener goes on after a move of its own, or completes, unless it is disposed of. -/
theorem Attends.move {leaves : Bool} (h : l.Attends token idle since now arrivals)
    (move : l.Move false now .listening l' .listening leaves) (order : now ≤ now') :
    l'.Attends token idle since now' arrivals ∨ l'.Missed token idle since now' arrivals [] := by
  obtain ⟨moment, before, timed, rested⟩ := h.quiet
  have rested' (empty : l'.queue = []) :
      Arrival.latest token since arrivals ≤ l.quiet l' moment now := by
    unfold Listener.quiet
    split
    · next length =>
      -- nothing was handed over, so that nothing waited before either
      have queue : l'.queue = l.queue := (List.append_inj move.order length).2
      exact rested (queue ▸ empty)
    · exact h.past
  cases ended : l'.outcome with
  | none =>
    exact .inl ⟨ended, move.cancelled.trans h.uncancelled, move.token.trans h.token_eq,
      move.idle.trans h.idle_eq, move.order.trans h.kept, Nat.le_trans h.past order, _,
      Nat.le_trans (quiet_le before) order, move.timed ended moment before timed, rested'⟩
  | some o =>
    have decision := move.decides h.undecided o ended
    cases o with
    | disposed => cases decision.of_disposed.1 rfl
    | cancelled =>
      have cancelled := (decision.of_cancelled.1 rfl).2
      rw [h.uncancelled] at cancelled
      cases cancelled
    | completed =>
      obtain ⟨emptied, expired⟩ := decision.of_completed rfl
      have gap := expired moment before timed
      have rested := rested' emptied
      rw [h.idle_eq] at gap
      refine .inr ⟨ended, ?_, by omega, nofun⟩
      rw [← h.kept, ← move.order, emptied, List.append_nil]

theorem Missed.later (h : l.Missed token idle since now heard missed) (order : now ≤ now')
    (after : ∀ a ∈ more, a.moment = now) :
    l.Missed token idle since now' heard (missed ++ more) := by
  refine ⟨h.outcome, h.kept, Nat.le_trans h.expired order, fun a ha => ?_⟩
  rcases List.mem_append.1 ha with ha | ha
  · exact h.late a ha
  · rw [after a ha]
    exact h.expired

end Listener

namespace Correlator

/-- What an event offers. -/
def offered (r : Correlator) (e : Event) : List Arrival :=
  e.offer?.toList.map fun o => ⟨r.now, o.1, o.2⟩

theorem offered_of_offer? (r : Correlator) {e : Event} {token : Token} {payload : Json}
    (he : e.offer? = some (token, payload)) : r.offered e = [⟨r.now, token, payload⟩] := by
  simp [offered, he]

theorem offered_of_silent (r : Correlator) {e : Event} (he : e.offer? = none) :
    r.offered e = [] := by
  simp [offered, he]

theorem disposed_step {r : Correlator} (h : r.progress.disposed = true) (e : Event) :
    (r.step e).progress.disposed = true := by
  have effect := effect_step r e
  generalize r.step e = r' at effect
  cases effect with
  | nothing | passes | cancels | acts => exact h
  | disposes => rfl
  | registers token idle =>
    simp only [Progress.register]
    split <;> exact h
  | offers _ token payload =>
    simp only [Progress.deliver]
    split <;> exact h

/-- What a listener that takes whole turns, and that nobody cancels, has of the payloads that have
arrived since it was registered. -/
inductive Hears (r : Correlator) (id : Nat) (token : Token) (idle since : Nat)
    (arrivals : List Arrival) : Prop where
  | listening (l : Listener) (found : r.find? id = some (l, .listening))
    (attends : l.Attends token idle since r.now arrivals)
  | completed (l : Listener) (found : r.find? id = some (l, .listening))
    (heard missed : List Arrival) (split : arrivals = heard ++ missed)
    (misses : l.Missed token idle since r.now heard missed)
  | disposed (gone : r.progress.disposed = true)

/-- A listener that has just been registered. -/
theorem hears_registered {r : Correlator} (fresh : r.Fresh) {token : Token}
    (free : r.progress.isRegistered token = false) (idle : Nat) :
    (r.step (.registered token idle)).Hears r.progress.nextId token idle r.now [] := by
  refine .listening ⟨r.progress.nextId, token, idle, false, [], none, [], none⟩ ?_ ?_
  · rw [step, find?_register fresh free, if_pos rfl]
  · exact ⟨rfl, rfl, rfl, rfl, rfl, Nat.le_refl _, r.now, Nat.le_refl _,
      by simp [Listener.Timed], fun _ => Nat.le_refl _⟩

section Step

variable {r : Correlator} {id : Nat} {token : Token} {idle since : Nat} {arrivals : List Arrival}
  {l : Listener} {e : Event}

theorem hears_step_of_attends (found : r.find? id = some (l, .listening))
    (attends : l.Attends token idle since r.now arrivals) (fresh : r.Fresh) (registry : r.Registry)
    (spared : e ≠ .cancelled id) (whole : (r.step e).phases id = .listening) :
    (r.step e).Hears id token idle since (arrivals ++ r.offered e) := by
  have change := change_step fresh e id
  have order := now_le_step r e
  have live : r.live? id = some token := by
    simp [live?, found, Listener.live, attends.undecided, attends.token_eq]
  generalize hv : (r.step e).find? id = v at change
  rw [found] at change
  cases change with
  | untouched _ elsewhere =>
    -- whatever is offered here is for another token
    have other : ∀ a ∈ r.offered e, a.token ≠ token := by
      rintro a ha rfl
      obtain ⟨offer, ho, rfl⟩ := List.mem_map.1 ha
      have unknown := elsewhere offer.1 offer.2 (Option.mem_toList.1 ho)
        ((registry offer.1 id).2 live)
      cases unknown
    exact .listening l hv (attends.later order other)
  | accepts _ _ token' payload he registered =>
    obtain rfl : token' = token :=
      Option.some.inj (((registry token' id).1 registered).symm.trans live)
    rw [offered_of_offer? r he]
    exact .listening _ hv (attends.accept order payload)
  | cancelled _ _ he => exact absurd he spared
  | moves _ l' _ phase leaves he move =>
    rw [(listener?_of_find? hv).2] at whole
    subst whole
    cases gone : r.progress.disposed with
    | true => exact .disposed (disposed_step gone e)
    | false =>
      rw [gone] at move
      rw [offered_of_silent r (Event.offer?_of_runner? he), List.append_nil]
      rcases attends.move move order with attends | misses
      · exact .listening l' hv attends
      · exact .completed l' hv arrivals [] (List.append_nil _).symm misses

theorem hears_step_of_missed {heard missed : List Arrival}
    (found : r.find? id = some (l, .listening))
    (misses : l.Missed token idle since r.now heard missed) (fresh : r.Fresh) (registry : r.Registry)
    (spared : e ≠ .cancelled id) (whole : (r.step e).phases id = .listening) :
    (r.step e).Hears id token idle since (heard ++ missed ++ r.offered e) := by
  have change := change_step fresh e id
  have later : l.Missed token idle since (r.step e).now heard (missed ++ r.offered e) := by
    refine misses.later (now_le_step r e) fun a ha => ?_
    obtain ⟨offer, -, rfl⟩ := List.mem_map.1 ha
    rfl
  generalize hv : (r.step e).find? id = v at change
  rw [found] at change
  rw [List.append_assoc]
  cases change with
  | untouched => exact .completed l hv heard _ rfl later
  | accepts _ _ token' payload _ registered =>
    have undecided := (outcome_of_live? found ((registry token' id).1 registered)).1
    rw [misses.outcome] at undecided
    cases undecided
  | cancelled _ _ he => exact absurd he spared
  | moves _ l' _ phase leaves _ move =>
    rw [(listener?_of_find? hv).2] at whole
    subst whole
    obtain rfl : l' = l := move.once (by simp [misses.outcome])
    exact .completed l' hv heard _ rfl later

theorem Hears.step (h : r.Hears id token idle since arrivals) (fresh : r.Fresh)
    (registry : r.Registry) (spared : e ≠ .cancelled id)
    (whole : (r.step e).phases id = .listening) :
    (r.step e).Hears id token idle since (arrivals ++ r.offered e) := by
  cases h with
  | listening l found attends =>
    exact hears_step_of_attends found attends fresh registry spared whole
  | completed l found heard missed split misses =>
    subst split
    exact hears_step_of_missed found misses fresh registry spared whole
  | disposed gone => exact .disposed (disposed_step gone e)

end Step

/-! ## Runs of whole turns -/

/-- The listener that an event cancels. -/
def Event.cancelled? : Event → Option Nat
  | .cancelled id => some id
  | _ => none

/-- Listeners take whole turns, while payloads arrive and some listeners are cancelled. -/
inductive Runs (r : Correlator) : List Arrival → List Nat → Correlator → Prop where
  | start : Runs r [] [] r
  | step {arrivals : List Arrival} {stopped : List Nat} {r' : Correlator}
    (run : Runs r arrivals stopped r') (e : Event) (whole : (r'.step e).phases = r'.phases) :
    Runs r (arrivals ++ r'.offered e) (stopped ++ e.cancelled?.toList) (r'.step e)

namespace Runs

variable {r r' r'' : Correlator} {arrivals more : List Arrival} {stopped stopped' : List Nat}

theorem trans (h : r.Runs arrivals stopped r') (h' : r'.Runs more stopped' r'') :
    r.Runs (arrivals ++ more) (stopped ++ stopped') r'' := by
  induction h' with
  | start => simpa using h
  | step _ e whole ih =>
    rw [← List.append_assoc, ← List.append_assoc]
    exact ih.step e whole

theorem of_step (e : Event) (whole : (r.step e).phases = r.phases) :
    r.Runs (r.offered e) e.cancelled?.toList (r.step e) := start.step e whole

theorem phases (h : r.Runs arrivals stopped r') : r'.phases = r.phases := by
  induction h with
  | start => rfl
  | step _ e whole ih => exact whole.trans ih

theorem nextId_le (h : r.Runs arrivals stopped r') : r.progress.nextId ≤ r'.progress.nextId := by
  induction h with
  | start => exact Nat.le_refl _
  | step _ e _ ih => exact Nat.le_trans ih (nextId_le_step ..)

theorem fresh (h : r.Runs arrivals stopped r') (hr : r.Fresh) : r'.Fresh := by
  induction h with
  | start => exact hr
  | step _ e _ ih => exact ih.step e

theorem registry (h : r.Runs arrivals stopped r') (hf : r.Fresh) (hr : r.Registry) :
    r'.Registry := by
  induction h with
  | start => exact hr
  | step run e _ ih => exact ih.step (run.fresh hf) e

end Runs

theorem Hears.run {r r' : Correlator} {id : Nat} {token : Token} {idle since : Nat}
    {arrivals more : List Arrival} {stopped : List Nat}
    (h : r.Hears id token idle since arrivals) (listening : r.phases id = .listening)
    (fresh : r.Fresh) (registry : r.Registry) (run : r.Runs more stopped r')
    (spared : id ∉ stopped) : r'.Hears id token idle since (arrivals ++ more) := by
  induction run with
  | start => rwa [List.append_nil]
  | step run e whole ih =>
    rw [List.mem_append, not_or] at spared
    rw [← List.append_assoc]
    refine (ih spared.1).step (run.fresh fresh) (run.registry fresh registry) ?_ ?_
    · rintro rfl
      exact spared.2 List.mem_cons_self
    · rw [whole, run.phases]
      exact listening

end Correlator

end PolyglotLsp
