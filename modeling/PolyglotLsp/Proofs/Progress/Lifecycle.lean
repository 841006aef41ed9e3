import PolyglotLsp.Proofs.Progress.Registry

/-!
# From registration to outcome

A listener decides on its outcome once, at some move of its own, and for a reason that holds at that
moment (`exists_decision`). The outcome that becomes known later is the one that was decided on, and
stays. A listener that leaves makes its token free, and does nothing to other listeners.
-/

namespace PolyglotLsp.Correlator

/-- The token and the idle time under which a listener was registered. -/
def registration? (id : Nat) : List Event → Option (Token × Nat)
  | [] => none
  | .registered token idle :: past =>
    if ((after past).progress.register token idle).2 = some id then some (token, idle)
    else registration? id past
  | _ :: past => registration? id past

/-- The outcome of a listener, once it is known. -/
def outcome? (id : Nat) (past : List Event) : Option ProgressOutcome :=
  ((after past).progress.listener? id).bind (·.outcome)

/-- The outcome that a listener has decided on. -/
def decided? (id : Nat) (past : List Event) : Option ProgressOutcome :=
  ((after past).find? id).bind fun v => v.1.decided? v.2

/-- How many payloads a listener has handed over. -/
def handedOver? (id : Nat) (past : List Event) : Option Nat :=
  ((after past).find? id).map (·.1.handled.length)

/-- The last moment at which a listener was registered or handed anything over. -/
def quietSince (id : Nat) : List Event → Nat
  | [] => 0
  | e :: past =>
    if handedOver? id (e :: past) = handedOver? id past then quietSince id past
    else (after past).now

/-! ## Time -/

theorem now_le_step (r : Correlator) (e : Event) : r.now ≤ (r.step e).now := by
  have effect := effect_step r e
  generalize r.step e = r' at effect
  cases effect with
  | passes time => exact Nat.le_add_right ..
  | nothing | registers | offers | cancels | disposes | acts => exact Nat.le_refl _

theorem quietSince_cons {past : List Event} {e : Event} {id : Nat} {l l' : Listener}
    {phase phase' : Phase} (hv : (after past).find? id = some (l, phase))
    (hv' : (after (e :: past)).find? id = some (l', phase')) :
    quietSince id (e :: past) = l.quiet l' (quietSince id past) (after past).now := by
  rw [quietSince, handedOver?, handedOver?, hv, hv', Listener.quiet]
  simp

/-- What is known about a listener that has been quiet since some moment. -/
def Timely (since now : Nat) : Option (Listener × Phase) → Prop
  | none => True
  | some (l, phase) => since ≤ now ∧ (l.decided? phase = none → l.Timed since) ∧
      ∀ o, l.outcome = some o → l.decided? phase = some o

theorem timely (past : List Event) (id : Nat) :
    Timely (quietSince id past) (after past).now ((after past).find? id) := by
  induction past with
  | nil => trivial
  | cons e past ih =>
    have change := change past e id
    have now : (after past).now ≤ (after (e :: past)).now := now_le_step (after past) e
    generalize hv : (after past).find? id = v at ih change
    generalize hv' : (after (e :: past)).find? id = v' at change
    cases change with
    | untouched =>
      cases v with
      | none => trivial
      | some v =>
        rw [quietSince_cons hv hv', Listener.quiet, if_pos rfl]
        exact ⟨Nat.le_trans ih.1 now, ih.2⟩
    | born token idle he =>
      have since : quietSince id (e :: past) = (after past).now := by
        rw [quietSince, handedOver?, handedOver?, hv, hv']
        simp
      rw [since]
      refine ⟨now, fun _ t ht => ?_, fun o ho => ?_⟩
      · cases ht
      · cases ho
    | accepts | cancelled =>
      rw [quietSince_cons hv hv', Listener.quiet, if_pos rfl]
      exact ⟨Nat.le_trans ih.1 now, ih.2⟩
    | moves l l' phase phase' leaves he move =>
      rw [quietSince_cons hv hv']
      refine ⟨Nat.le_trans (Listener.quiet_le ih.1) now, fun going => ?_, fun o ho => ?_⟩
      · -- whoever is undecided after a move was so before it
        have undecided : l.decided? phase = none := by
          cases hd : l.decided? phase with
          | none => rfl
          | some o =>
            rw [move.kept o hd] at going
            cases going
        exact move.timed going _ ih.1 (ih.2.1 undecided)
      · by_cases ended : l.outcome = none
        · exact move.outcome ended o ho
        · have same := move.once ended
          subst same
          exact move.kept o (ih.2.2 o ho)

/-! ## Decisions -/

/-- The outcome that a listener decides on when it runs: being disposed of comes first, then being
cancelled; and it completes only if nothing waits and it has been quiet for the idle time under
which it was registered. -/
def Reason (id : Nat) (o : ProgressOutcome) (e : Event) (seen : List Event) : Prop :=
  e.runner? = some id ∧ ∃ l l' token idle, (after seen).progress.listener? id = some l ∧
    (after (e :: seen)).progress.listener? id = some l' ∧
    registration? id seen = some (token, idle) ∧
    (o = .disposed ↔ (after seen).progress.disposed = true) ∧
    (o = .cancelled ↔ (after seen).progress.disposed = false ∧ l.cancelled = true) ∧
    (o = .completed → l'.queue = [] ∧ quietSince id (e :: seen) + idle ≤ (after seen).now)

/-- A number that has been given out is not given out again. -/
theorem registration?_cons {past : List Event} {id : Nat} {l : Listener}
    (hl : (after past).progress.listener? id = some l) (e : Event) :
    registration? id (e :: past) = registration? id past := by
  cases e with
  | registered token idle =>
    refine if_neg fun answer => ?_
    cases free : (after past).progress.isRegistered token with
    | true => simp [Progress.register_of_registered free] at answer
    | false =>
      rw [Progress.register_of_free free, Option.some.injEq] at answer
      rw [(fresh past).listener id (Nat.le_of_eq answer)] at hl
      cases hl
  | delivered | notified | cancelled | disposed | passed | polled | looked | unregistered
  | finished => rfl

theorem registration?_of_find? {past : List Event} {id : Nat} {l : Listener} {phase : Phase}
    (h : (after past).find? id = some (l, phase)) :
    registration? id past = some (l.token, l.idle) := by
  induction past generalizing l phase with
  | nil => cases h
  | cons e past ih =>
    have change := change past e id
    rw [h] at change
    have known {l : Listener} {phase : Phase} (hv : (after past).find? id = some (l, phase)) :
        registration? id (e :: past) = some (l.token, l.idle) := by
      rw [registration?_cons (listener?_of_find? hv).1, ih hv]
    generalize hv : (after past).find? id = v at change
    cases change with
    | untouched | accepts | cancelled =>
      have same := known hv
      exact same
    | born token idle he answer =>
      subst he
      exact if_pos answer
    | moves l₀ _ phase₀ _ leaves he move =>
      rw [move.token, move.idle]
      exact known hv

theorem decided?_cons (past : List Event) (e : Event) {id : Nat} {o : ProgressOutcome}
    (h : decided? id past = some o) : decided? id (e :: past) = some o := by
  have change := change past e id
  unfold decided? at h ⊢
  generalize (after past).find? id = v at h change
  generalize (after (e :: past)).find? id = v' at change
  cases change with
  | untouched => exact h
  | born => cases h
  | accepts l phase | cancelled l phase => cases phase <;> exact h
  | moves l l' phase phase' leaves he move => exact move.kept o h

theorem reason_of_decided? {past : List Event} {e : Event} {id : Nat} {o : ProgressOutcome}
    (before : decided? id past = none) (now : decided? id (e :: past) = some o) :
    Reason id o e past := by
  have timely := timely past id
  have change := change past e id
  unfold decided? at before now
  generalize hv : (after past).find? id = v at timely before change
  generalize hv' : (after (e :: past)).find? id = v' at now change
  cases change with
  | untouched =>
    rw [before] at now
    cases now
  | born => cases now
  | accepts l phase | cancelled l phase =>
    -- neither changes what was decided
    have same : l.decided? phase = some o := by cases phase <;> exact now
    rw [show l.decided? phase = none from before] at same
    cases same
  | moves l l' phase phase' leaves he move =>
    have decision := move.decides before o now
    refine ⟨he, l, l', l.token, l.idle, (listener?_of_find? hv).1, (listener?_of_find? hv').1,
      registration?_of_find? hv, decision.of_disposed, decision.of_cancelled, fun hc => ?_⟩
    obtain ⟨emptied, expired⟩ := decision.of_completed hc
    rw [quietSince_cons hv hv']
    exact ⟨emptied, expired _ timely.1 (timely.2.1 before)⟩

/-- Whatever a listener has decided on, it has decided on at one moment of the history. -/
theorem exists_decision {past : List Event} {id : Nat} {o : ProgressOutcome}
    (h : decided? id past = some o) :
    ∃ later e seen, past = later ++ e :: seen ∧ decided? id seen = none ∧ Reason id o e seen := by
  induction past with
  | nil => cases h
  | cons e past ih =>
    cases before : decided? id past with
    | none => exact ⟨[], e, past, rfl, before, reason_of_decided? before h⟩
    | some o' =>
      have same := decided?_cons past e before
      rw [h] at same
      cases same
      obtain ⟨later, e', seen, rfl, undecided, reason⟩ := ih before
      exact ⟨e :: later, e', seen, rfl, undecided, reason⟩

theorem decided?_of_outcome? {past : List Event} {id : Nat} {o : ProgressOutcome}
    (h : outcome? id past = some o) : decided? id past = some o := by
  obtain ⟨l, hl, ho⟩ := Option.bind_eq_some_iff.1 h
  have found := find?_of_listener? hl
  have timely := timely past id
  rw [found] at timely
  rw [decided?, found, Option.bind_some]
  exact timely.2.2 o ho

theorem outcome?_append {past : List Event} {id : Nat} {o : ProgressOutcome}
    (h : outcome? id past = some o) (later : List Event) :
    outcome? id (later ++ past) = some o := by
  obtain ⟨l, hl, ho⟩ := Option.bind_eq_some_iff.1 h
  obtain ⟨l', hl', ho', -⟩ := ended_later hl ho later
  rw [outcome?, hl', Option.bind_some, ho']

theorem listening_of_undecided {past : List Event} {id : Nat} {l : Listener}
    (hl : (after past).progress.listener? id = some l) (h : decided? id past = none) :
    (after past).phases id = .listening ∧ l.outcome = none := by
  rw [decided?, find?_of_listener? hl, Option.bind_some] at h
  generalize (after past).phases id = phase at h
  cases phase with
  | listening => exact ⟨rfl, h⟩
  | stopping | leaving => cases h

/-- A listener that runs notices at once that it is disposed of or cancelled. -/
theorem decided?_run {past : List Event} {id : Nat} {l : Listener} {e : Event}
    (hl : (after past).progress.listener? id = some l) (before : decided? id past = none)
    (he : e = .polled id ∨ e = .looked id) :
    ((after past).progress.disposed = true → decided? id (e :: past) = some .disposed) ∧
      ((after past).progress.disposed = false → l.cancelled = true →
        decided? id (e :: past) = some .cancelled) := by
  obtain ⟨hp, ho⟩ := listening_of_undecided hl before
  have turned : decided? id (.polled id :: past) =
      (l.turn (after past).progress.disposed (after past).now).outcome := by
    rw [decided?, after, step, hp]
    dsimp only
    rw [act_turn hl hp, find?_act _ hl (l.move_turn _ _).id, if_pos rfl]
    rfl
  have looked : decided? id (.looked id :: past) =
      (l.look (after past).progress.disposed (after past).now).1.decided?
        (l.look (after past).progress.disposed (after past).now).2 := by
    rw [decided?, after, step, hl, hp]
    simp only [ho, Option.isSome_none, Bool.false_eq_true, if_false]
    rw [find?_act _ hl (Listener.move_look ho _ _).id, if_pos rfl]
    rfl
  rcases he with rfl | rfl
  · rw [turned]
    refine ⟨fun hd => ?_, fun hd hc => ?_⟩
    · simp [Listener.turn, ho, hd]
    · simp [Listener.turn, ho, hd, hc]
  · rw [looked]
    refine ⟨fun hd => ?_, fun hd hc => ?_⟩
    · simp [Listener.look, Listener.decided?, hd]
    · simp [Listener.look, Listener.decided?, hd, hc]

/-! ## Registrations -/

theorem isRegistered_iff (past : List Event) (token : Token) :
    (after past).progress.isRegistered token = true ↔
      ∃ id, (after past).live? id = some token := by
  rw [Progress.isRegistered, Option.isSome_iff_exists]
  exact exists_congr fun id => registry past token id

theorem live?_unique {past : List Event} {token : Token} {id id' : Nat}
    (h : (after past).live? id = some token) (h' : (after past).live? id' = some token) :
    id = id' := by
  have entry := (registry past token id).2 h
  rw [(registry past token id').2 h'] at entry
  exact (Option.some.inj entry).symm

theorem register_eq_none_iff (p : Progress) (token : Token) (idle : Nat) :
    (p.register token idle).2 = none ↔ p.isRegistered token = true := by
  unfold Progress.register
  split
  · next taken => simp [taken]
  · next free => simp [free]

/-- Whatever a listener does, other listeners and their registrations stay as they are. -/
theorem elsewhere_of_runner? (past : List Event) {e : Event} {id : Nat} (he : e.runner? = some id)
    {id' : Nat} (hi : id' ≠ id) :
    (after (e :: past)).find? id' = (after past).find? id' ∧
      ∀ token, (after (e :: past)).progress.registered.get? token = some id' ↔
        (after past).progress.registered.get? token = some id' := by
  rw [after]
  rcases step_own (after past) he with hs | ⟨l, l', phase, leaves, hl, move, hs⟩
  · rw [hs]
    exact ⟨rfl, fun _ => Iff.rfl⟩
  · rw [hs]
    refine ⟨?_, fun token => ?_⟩
    · rw [find?_act leaves hl move.id, if_neg hi]
    · rw [registered_act (registry past) hl move]
      split
      · next mine => simp [mine.2, Ne.symm hi]
      · exact Iff.rfl

/-- Whoever stops being live makes its token free. -/
theorem isRegistered_of_left {past : List Event} {e : Event} {id : Nat} {token : Token}
    (before : (after past).live? id = some token) (now : (after (e :: past)).live? id = none) :
    (after (e :: past)).progress.isRegistered token = false := by
  -- only leaving ends it, and that takes the registration away
  have registered := (registry past token id).2 before
  have fresh := fresh past
  have effect := effect_step (after past) e
  rw [after] at now ⊢
  generalize (after past).step e = r' at effect now ⊢
  cases effect with
  | nothing | disposes | passes =>
    rw [show (after past).live? id = none from now] at before
    cases before
  | registers token' idle =>
    cases free : (after past).progress.isRegistered token' with
    | true =>
      rw [Progress.register_of_registered free] at now
      rw [show (after past).live? id = none from now] at before
      cases before
    | false =>
      rw [live?_register fresh free] at now
      split at now
      · cases now
      · rw [now] at before
        cases before
  | offers _ token' payload =>
    rw [live?_deliver, before] at now
    cases now
  | cancels id' =>
    rw [live?_cancel, before] at now
    cases now
  | acts _ runner _ l l' phase leaves hl move =>
    rw [live?_act hl move] at now
    split at now
    · next left =>
      rw [Progress.isRegistered, registered_act (registry past) hl move,
        if_pos ⟨left.2, left.1 ▸ registered⟩]
      rfl
    · rw [before] at now
      cases now

/-- The life of registrations up to some moment. -/
structure Orderly (past : List Event) : Prop where
  /-- A token is registered exactly if it has a live listener. -/
  registered : ∀ token, (after past).progress.isRegistered token = true ↔
    ∃ id, (after past).live? id = some token
  /-- It never has two. -/
  unique : ∀ token id id', (after past).live? id = some token →
    (after past).live? id' = some token → id = id'
  /-- It is refused to whoever wants to register it exactly as long as it has one. -/
  refused : ∀ token idle, ((after past).progress.register token idle).2 = none ↔
    ∃ id, (after past).live? id = some token
  /-- A listener that runs and is disposed of, or else cancelled, decides accordingly. -/
  noticed : ∀ id l e, (after past).progress.listener? id = some l → decided? id past = none →
    e = .polled id ∨ e = .looked id →
    ((after past).progress.disposed = true → decided? id (e :: past) = some .disposed) ∧
    ((after past).progress.disposed = false → l.cancelled = true →
      decided? id (e :: past) = some .cancelled)
  /-- An outcome stays as it is, and is the one that was decided on for a reason. -/
  settled : ∀ id o, outcome? id past = some o →
    (∀ later, outcome? id (later ++ past) = some o) ∧
    ∃ later e seen, past = later ++ e :: seen ∧ decided? id seen = none ∧ Reason id o e seen
  /-- What a listener does leaves all others and their registrations alone. -/
  apart : ∀ e id, e.runner? = some id → ∀ id', id' ≠ id →
    (after (e :: past)).find? id' = (after past).find? id' ∧
    ∀ token, (after (e :: past)).progress.registered.get? token = some id' ↔
      (after past).progress.registered.get? token = some id'
  /-- A token can be registered again as soon as its listener is not live any more. -/
  freed : ∀ e id token, (after past).live? id = some token → (after (e :: past)).live? id = none →
    ∀ idle, ((after (e :: past)).progress.register token idle).2.isSome

theorem registration_lifecycle (past : List Event) : Orderly past where
  registered := isRegistered_iff past
  unique token id id' := live?_unique
  refused token idle := by rw [register_eq_none_iff, isRegistered_iff]
  noticed id l e := decided?_run
  settled id o ho := ⟨outcome?_append ho, exists_decision (decided?_of_outcome? ho)⟩
  apart e id he id' hi := elsewhere_of_runner? past he hi
  freed e id token before now idle := by
    have free := isRegistered_of_left before now
    rw [Option.isSome_iff_ne_none, ne_eq, register_eq_none_iff, free]
    exact Bool.false_ne_true

end PolyglotLsp.Correlator
