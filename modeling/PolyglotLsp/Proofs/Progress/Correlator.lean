import Mathlib.Logic.Function.Basic
import PolyglotLsp.Proofs.Progress.Move

/-!
# Listeners at work

Listeners take whole turns or small steps in any order, while tokens are registered, payloads are
offered, listeners are cancelled or disposed of, and time passes. All that one event can do is
listed once for the whole state (`Effect`) and once for a single listener (`Change`): whatever a
listener does of its own is a move of that listener, and takes away nothing but its own
registration. A whole turn is nothing but the listener's small steps, taken in a row
(`Correlator.exists_small_steps`).
-/

namespace PolyglotLsp

/-! ## Listeners by their numbers -/

namespace Progress

theorem id_of_listener? {p : Progress} {id : Nat} {l : Listener} (h : p.listener? id = some l) :
    l.id = id := by
  simpa using List.find?_some h

theorem listener?_modify (p : Progress) {id : Nat} {f : Listener → Listener}
    (hf : ∀ l, l.id = id → (f l).id = id) (id' : Nat) :
    (p.modify id f).listener? id' =
      if id' = id then (p.listener? id).map f else p.listener? id' := by
  -- a change keeps all numbers, so that the search finds the same listener
  have same : ∀ l : Listener, (if l.id = id then f l else l).id = l.id := by
    intro l
    split
    · next hl => rw [hf l hl, hl]
    · rfl
  unfold listener? modify
  rw [List.find?_map]
  simp only [Function.comp_def, same]
  split
  · next hi =>
    subst hi
    cases h : p.listeners.find? (·.id = id') with
    | none => rfl
    | some l => simp [id_of_listener? h]
  · next hi =>
    cases h : p.listeners.find? (·.id = id') with
    | none => rfl
    | some l => simp [id_of_listener? h, hi]

/-- A payload that is offered to nobody is refused, and otherwise it goes to the queue of whoever is
registered. -/
theorem listener?_deliver (p : Progress) (token : Token) (payload : Json) (id : Nat) :
    (p.deliver token payload).1.listener? id =
      if p.registered.get? token = some id then
        (p.listener? id).map fun l => { l with queue := l.queue ++ [payload] }
      else p.listener? id := by
  unfold deliver
  split
  · next hn => simp [hn]
  · next id' hs =>
    dsimp only
    rw [listener?_modify p, hs]
    · by_cases same : id = id'
      · simp [same]
      · simp [same, Ne.symm same]
    · exact fun _ hl => hl

theorem listener?_cancel (p : Progress) (id id' : Nat) :
    (p.cancel id).listener? id' =
      if id' = id then (p.listener? id).map ({ · with cancelled := true })
      else p.listener? id' := by
  unfold cancel
  rw [listener?_modify p]
  exact fun _ hl => hl

theorem nextId_deliver (p : Progress) (token : Token) (payload : Json) :
    (p.deliver token payload).1.nextId = p.nextId := by
  unfold deliver
  split <;> rfl

theorem registered_deliver (p : Progress) (token : Token) (payload : Json) :
    (p.deliver token payload).1.registered = p.registered := by
  unfold deliver
  split <;> rfl

/-- The token and the payload of a notification, if it is one of progress. -/
def offer? (name : String) (params : Json) : Option (Token × Json) :=
  if name = method then (Token.ofJson? (params.get "token")).map (·, params.get "value") else none

theorem deliverNotification_eq (p : Progress) (name : String) (params : Json) :
    p.deliverNotification name params =
      match offer? name params with
      | none => (p, false)
      | some (token, payload) => p.deliver token payload := by
  unfold deliverNotification offer?
  by_cases hn : name = method
  · cases ht : Token.ofJson? (params.get "token") <;> simp [hn]
  · simp [hn]

theorem nextId_register (p : Progress) (token : Token) (idle : Nat) :
    (p.register token idle).1.nextId = p.nextId + 1 := by
  unfold register
  split <;> rfl

theorem nextId_poll (p : Progress) (now id : Nat) : (p.poll now id).nextId = p.nextId := by
  unfold poll
  split
  · rfl
  · dsimp only
    split
    · rfl
    · rfl

theorem number_of_register {p : Progress} {token : Token} {idle id : Nat}
    (h : (p.register token idle).2 = some id) : id = p.nextId := by
  unfold register at h
  split at h
  · cases h
  · exact (Option.some.inj h).symm

theorem register_of_registered {p : Progress} {token : Token} (h : p.isRegistered token = true)
    (idle : Nat) : p.register token idle = ({ p with nextId := p.nextId + 1 }, none) := by
  simp [register, h]

theorem register_of_free {p : Progress} {token : Token} (h : p.isRegistered token = false)
    (idle : Nat) : (p.register token idle).2 = some p.nextId := by
  simp [register, h]

theorem listener?_register {p : Progress} {token : Token} (h : p.isRegistered token = false)
    (fresh : p.listener? p.nextId = none) (idle id : Nat) :
    (p.register token idle).1.listener? id =
      if id = p.nextId then some ⟨p.nextId, token, idle, false, [], none, [], none⟩
      else p.listener? id := by
  simp only [register, h, Bool.false_eq_true, if_false]
  unfold listener? at fresh ⊢
  rw [List.find?_append]
  split
  · next hi =>
    subst hi
    simp [fresh]
  · next hi => simp [Ne.symm hi]

end Progress

/-- The tokens and listeners, a clock, and how far the listeners are. -/
structure Correlator where
  progress : Progress
  now : Nat
  phases : Nat → Phase

namespace Correlator

inductive Event where
  | registered (token : Token) (idle : Nat)
  | delivered (token : Token) (payload : Json)
  | notified (name : String) (params : Json)
  | cancelled (id : Nat)
  | disposed
  | passed (time : Nat)
  | polled (id : Nat)
  | looked (id : Nat)
  | unregistered (id : Nat)
  | finished (id : Nat)

def new : Correlator := ⟨.empty, 0, fun _ => .listening⟩

/-- What a listener does of its own: what becomes of it, and whether it takes its token out of the
registry. Another registration of the token stays. -/
def act (r : Correlator) (id : Nat) (l : Listener) (phase : Phase) (leaves : Bool) : Correlator :=
  { r with
    progress := {
      r.progress.modify id (fun _ => l) with
      registered :=
        if leaves && r.progress.registered.get? l.token == some id then
          r.progress.registered.erase l.token
        else r.progress.registered }
    phases := Function.update r.phases id phase }

def step (r : Correlator) : Event → Correlator
  | .registered token idle => { r with progress := (r.progress.register token idle).1 }
  | .delivered token payload => { r with progress := (r.progress.deliver token payload).1 }
  | .notified name params => { r with progress := (r.progress.deliverNotification name params).1 }
  | .cancelled id => { r with progress := r.progress.cancel id }
  | .disposed => { r with progress := r.progress.dispose }
  | .passed time => { r with now := r.now + time }
  | .polled id =>
    match r.phases id with
    | .listening => { r with progress := r.progress.poll r.now id }
    | .stopping _ | .leaving _ => r
  | .looked id =>
    match r.progress.listener? id, r.phases id with
    | some l, .listening =>
      if l.outcome.isSome then r
      else r.act id (l.look r.progress.disposed r.now).1 (l.look r.progress.disposed r.now).2 false
    | _, _ => r
  | .unregistered id =>
    match r.progress.listener? id, r.phases id with
    | some l, .stopping outcome => r.act id l (.leaving outcome) true
    | _, _ => r
  | .finished id =>
    match r.progress.listener? id, r.phases id with
    | some l, .leaving outcome =>
      if l.outcome.isSome then r else r.act id (l.finish outcome) (.leaving outcome) false
    | _, _ => r

/-- The correlator after a history, which lists the latest event first. -/
def after : List Event → Correlator
  | [] => .new
  | e :: past => (after past).step e

/-- The token and the payload that an event offers. -/
def Event.offer? : Event → Option (Token × Json)
  | .delivered token payload => some (token, payload)
  | .notified name params => Progress.offer? name params
  | _ => none

/-- The listener whose own doing an event is. -/
def Event.runner? : Event → Option Nat
  | .polled id | .looked id | .unregistered id | .finished id => some id
  | _ => none

theorem Event.offer?_of_runner? {e : Event} {id : Nat} (h : e.runner? = some id) :
    e.offer? = none := by
  cases e <;> first | rfl | cases h

/-- A listener by its number, and how far it is. -/
def find? (r : Correlator) (id : Nat) : Option (Listener × Phase) :=
  (r.progress.listener? id).map (·, r.phases id)

theorem find?_of_listener? {r : Correlator} {id : Nat} {l : Listener}
    (h : r.progress.listener? id = some l) : r.find? id = some (l, r.phases id) := by
  rw [find?, h, Option.map_some]

theorem listener?_of_find? {r : Correlator} {id : Nat} {l : Listener} {phase : Phase}
    (h : r.find? id = some (l, phase)) :
    r.progress.listener? id = some l ∧ r.phases id = phase := by
  obtain ⟨l', hl, he⟩ := Option.map_eq_some_iff.1 h
  cases he
  exact ⟨hl, rfl⟩

theorem find?_act {r : Correlator} {id : Nat} {l l' : Listener} {phase : Phase} (leaves : Bool)
    (hl : r.progress.listener? id = some l) (hi : l'.id = l.id) (id' : Nat) :
    (r.act id l' phase leaves).find? id' =
      if id' = id then some (l', phase) else r.find? id' := by
  have number : l'.id = id := hi.trans (Progress.id_of_listener? hl)
  have found : (r.act id l' phase leaves).progress.listener? id' =
      if id' = id then some l' else r.progress.listener? id' :=
    (Progress.listener?_modify r.progress (fun _ _ => number) id').trans (by rw [hl]; rfl)
  unfold find?
  rw [found]
  by_cases same : id' = id
  · subst same
    simp [act]
  · simp [act, same]

/-- A whole turn is an action of the listener. -/
theorem act_turn {r : Correlator} {id : Nat} {l : Listener} (hl : r.progress.listener? id = some l)
    (hp : r.phases id = .listening) :
    { r with progress := r.progress.poll r.now id } =
      r.act id (l.turn r.progress.disposed r.now) .listening
        (l.turn r.progress.disposed r.now).outcome.isSome := by
  have token := (l.move_turn r.progress.disposed r.now).token
  have phases : Function.update r.phases id .listening = r.phases := by
    rw [← hp, Function.update_eq_self]
  simp only [Progress.poll, hl, act, phases, token]
  split
  · rfl
  · rfl

/-- Whatever a listener does of its own is a move. -/
theorem step_own (r : Correlator) {e : Event} {id : Nat} (he : e.runner? = some id) :
    r.step e = r ∨ ∃ l l' phase leaves, r.progress.listener? id = some l ∧
      l.Move r.progress.disposed r.now (r.phases id) l' phase leaves ∧
      r.step e = r.act id l' phase leaves := by
  cases e with
  | registered | delivered | notified | cancelled | disposed | passed => cases he
  | polled id' =>
    cases he
    simp only [step]
    split
    · next hp =>
      cases hl : r.progress.listener? id with
      | none => exact .inl (by simp [Progress.poll, hl])
      | some l =>
        refine .inr ⟨l, _, _, _, rfl, ?_, act_turn hl hp⟩
        rw [hp]
        exact l.move_turn ..
    · exact .inl rfl
    · exact .inl rfl
  | looked id' =>
    cases he
    simp only [step]
    split
    · next l hl hp =>
      split
      · exact .inl rfl
      · next ho =>
        refine .inr ⟨l, _, _, _, hl, ?_, rfl⟩
        rw [hp]
        exact Listener.move_look (by simpa using ho) ..
    · exact .inl rfl
  | unregistered id' =>
    cases he
    simp only [step]
    split
    · next l outcome hl hp =>
      refine .inr ⟨l, _, _, _, hl, ?_, rfl⟩
      rw [hp]
      exact Listener.move_unregister ..
    · exact .inl rfl
  | finished id' =>
    cases he
    simp only [step]
    split
    · next l outcome hl hp =>
      split
      · exact .inl rfl
      · next ho =>
        refine .inr ⟨l, _, _, _, hl, ?_, rfl⟩
        rw [hp]
        exact Listener.move_finish _ _ (by simpa using ho) outcome
    · exact .inl rfl

/-- All that an event can do. -/
inductive Effect (r : Correlator) : Event → Correlator → Prop where
  | nothing (e : Event) (he : e.offer? = none) : Effect r e r
  | registers (token : Token) (idle : Nat) :
    Effect r (.registered token idle) { r with progress := (r.progress.register token idle).1 }
  | offers (e : Event) (token : Token) (payload : Json) (he : e.offer? = some (token, payload)) :
    Effect r e { r with progress := (r.progress.deliver token payload).1 }
  | cancels (id : Nat) : Effect r (.cancelled id) { r with progress := r.progress.cancel id }
  | disposes : Effect r .disposed { r with progress := r.progress.dispose }
  | passes (time : Nat) : Effect r (.passed time) { r with now := r.now + time }
  | acts (e : Event) (id : Nat) (he : e.runner? = some id) (l l' : Listener) (phase : Phase)
    (leaves : Bool) (hl : r.progress.listener? id = some l)
    (move : l.Move r.progress.disposed r.now (r.phases id) l' phase leaves) :
    Effect r e (r.act id l' phase leaves)

theorem effect_step (r : Correlator) (e : Event) : r.Effect e (r.step e) := by
  have own {id : Nat} (he : e.runner? = some id) : r.Effect e (r.step e) := by
    rcases step_own r he with hs | ⟨l, l', phase, leaves, hl, move, hs⟩
    · rw [hs]
      exact .nothing e (Event.offer?_of_runner? he)
    · rw [hs]
      exact .acts e id he l l' phase leaves hl move
  cases e with
  | registered token idle => exact .registers token idle
  | delivered token payload => exact .offers _ token payload rfl
  | notified name params =>
    simp only [step, Progress.deliverNotification_eq]
    cases ho : Progress.offer? name params with
    | none => exact .nothing _ ho
    | some offer => exact .offers _ offer.1 offer.2 ho
  | cancelled id => exact .cancels id
  | disposed => exact .disposes
  | passed time => exact .passes time
  | polled | looked | unregistered | finished => exact own rfl

/-! ## What an event does to one listener -/

/-- Numbers that have not been given out have no listener. -/
structure Fresh (r : Correlator) : Prop where
  listener : ∀ id, r.progress.nextId ≤ id → r.progress.listener? id = none
  phase : ∀ id, r.progress.nextId ≤ id → r.phases id = .listening

/-- What an event can do to the listener of a number. -/
inductive Change (r : Correlator) (id : Nat) (e : Event) :
    Option (Listener × Phase) → Option (Listener × Phase) → Prop where
  | untouched (v : Option (Listener × Phase))
    (elsewhere : ∀ token payload, e.offer? = some (token, payload) →
      r.progress.registered.get? token = some id → v = none) : Change r id e v v
  | born (token : Token) (idle : Nat) (he : e = .registered token idle)
    (answer : (r.progress.register token idle).2 = some id) :
    Change r id e none (some (⟨id, token, idle, false, [], none, [], none⟩, .listening))
  | accepts (l : Listener) (phase : Phase) (token : Token) (payload : Json)
    (he : e.offer? = some (token, payload))
    (registered : r.progress.registered.get? token = some id) :
    Change r id e (some (l, phase)) (some ({ l with queue := l.queue ++ [payload] }, phase))
  | cancelled (l : Listener) (phase : Phase) (he : e = .cancelled id) :
    Change r id e (some (l, phase)) (some ({ l with cancelled := true }, phase))
  | moves (l l' : Listener) (phase phase' : Phase) (leaves : Bool) (he : e.runner? = some id)
    (move : l.Move r.progress.disposed r.now phase l' phase' leaves) :
    Change r id e (some (l, phase)) (some (l', phase'))

theorem change_of_silent (r : Correlator) (id : Nat) {e : Event} (he : e.offer? = none)
    (v : Option (Listener × Phase)) : r.Change id e v v :=
  .untouched v (by simp [he])

theorem find?_register {r : Correlator} (fresh : r.Fresh) {token : Token}
    (free : r.progress.isRegistered token = false) (idle id : Nat) :
    ({ r with progress := (r.progress.register token idle).1 } : Correlator).find? id =
      if id = r.progress.nextId then
        some (⟨id, token, idle, false, [], none, [], none⟩, .listening)
      else r.find? id := by
  unfold find?
  dsimp only
  rw [Progress.listener?_register free (fresh.listener _ (Nat.le_refl _))]
  split
  · next hi =>
    subst hi
    simp [fresh.phase _ (Nat.le_refl _)]
  · rfl

theorem find?_deliver (r : Correlator) (token : Token) (payload : Json) (id : Nat) :
    ({ r with progress := (r.progress.deliver token payload).1 } : Correlator).find? id =
      if r.progress.registered.get? token = some id then
        (r.find? id).map fun v => ({ v.1 with queue := v.1.queue ++ [payload] }, v.2)
      else r.find? id := by
  unfold find?
  dsimp only
  rw [Progress.listener?_deliver]
  split
  · rw [Option.map_map, Option.map_map]
    rfl
  · rfl

theorem find?_cancel (r : Correlator) (id id' : Nat) :
    ({ r with progress := r.progress.cancel id } : Correlator).find? id' =
      if id' = id then (r.find? id).map fun v => ({ v.1 with cancelled := true }, v.2)
      else r.find? id' := by
  unfold find?
  dsimp only
  rw [Progress.listener?_cancel]
  split
  · next hi =>
    rw [hi, Option.map_map, Option.map_map]
    rfl
  · rfl

theorem change_step {r : Correlator} (fresh : r.Fresh) (e : Event) (id : Nat) :
    r.Change id e (r.find? id) ((r.step e).find? id) := by
  have effect := effect_step r e
  generalize r.step e = r' at effect
  cases effect with
  | nothing _ he => exact change_of_silent r id he _
  | registers token idle =>
    cases hr : r.progress.isRegistered token with
    | true =>
      rw [Progress.register_of_registered hr]
      exact change_of_silent r id rfl _
    | false =>
      rw [find?_register fresh hr]
      split
      · next hi =>
        have unknown : r.find? id = none := by
          rw [find?, fresh.listener id (Nat.le_of_eq hi.symm), Option.map_none]
        rw [unknown]
        exact .born token idle rfl (by rw [Progress.register_of_free hr, hi])
      · exact change_of_silent r id rfl _
  | offers _ token payload he =>
    rw [find?_deliver]
    split
    · next registered =>
      cases r.find? id with
      | none => exact .untouched none fun _ _ _ _ => rfl
      | some v => exact .accepts v.1 v.2 token payload he registered
    · next registered =>
      refine .untouched _ fun token' payload' he' registered' => ?_
      rw [he] at he'
      cases he'
      exact absurd registered' registered
  | cancels id' =>
    rw [find?_cancel]
    split
    · next hi =>
      subst hi
      cases r.find? id with
      | none => exact change_of_silent r id rfl none
      | some v => exact .cancelled v.1 v.2 rfl
    · exact change_of_silent r id rfl _
  | disposes | passes => exact change_of_silent r id rfl _
  | acts _ runner he l l' phase leaves hl move =>
    rw [find?_act leaves hl move.id]
    split
    · next hi =>
      subst hi
      rw [find?_of_listener? hl]
      exact .moves l l' _ phase leaves he move
    · exact change_of_silent r id (Event.offer?_of_runner? he) _

theorem Fresh.step {r : Correlator} (h : r.Fresh) (e : Event) : (r.step e).Fresh := by
  have effect := effect_step r e
  generalize r.step e = r' at effect
  cases effect with
  | nothing => exact h
  | registers token idle =>
    have given {id : Nat} (hi : (r.progress.register token idle).1.nextId ≤ id) :
        r.progress.nextId < id := by
      rw [Progress.nextId_register] at hi
      omega
    refine ⟨fun id hi => ?_, fun id hi => h.phase id (Nat.le_of_lt (given hi))⟩
    · have known := given hi
      cases hr : r.progress.isRegistered token with
      | true =>
        rw [Progress.register_of_registered hr]
        exact h.listener id (Nat.le_of_lt known)
      | false =>
        dsimp only
        rw [Progress.listener?_register hr (h.listener _ (Nat.le_refl _)),
          if_neg (Nat.ne_of_gt known)]
        exact h.listener id (Nat.le_of_lt known)
  | offers _ token payload =>
    have next := Progress.nextId_deliver r.progress token payload
    refine ⟨fun id hi => ?_, fun id hi => h.phase id (next ▸ hi)⟩
    dsimp only
    rw [Progress.listener?_deliver, h.listener id (next ▸ hi)]
    split <;> rfl
  | cancels id' =>
    refine ⟨fun id hi => ?_, h.phase⟩
    have unknown := h.listener id hi
    dsimp only
    rw [Progress.listener?_cancel]
    split
    · next same => rw [← same, unknown, Option.map_none]
    · exact unknown
  | disposes | passes => exact ⟨h.listener, h.phase⟩
  | acts _ runner _ l l' phase leaves hl move =>
    have other {id : Nat} (hi : r.progress.nextId ≤ id) : id ≠ runner := by
      rintro rfl
      rw [h.listener id hi] at hl
      cases hl
    refine ⟨fun id hi => ?_, fun id hi => ?_⟩
    · have unknown : (r.act runner l' phase leaves).find? id = none := by
        rw [find?_act leaves hl move.id, if_neg (other hi), find?, h.listener id hi,
          Option.map_none]
      exact Option.map_eq_none_iff.1 unknown
    · exact (Function.update_of_ne (other hi) ..).trans (h.phase id hi)

/-- Numbers are given out in order. -/
theorem nextId_le_step (r : Correlator) (e : Event) :
    r.progress.nextId ≤ (r.step e).progress.nextId := by
  have effect := effect_step r e
  generalize r.step e = r' at effect
  cases effect with
  | registers token idle =>
    rw [Progress.nextId_register]
    exact Nat.le_succ _
  | offers _ token payload => exact Nat.le_of_eq (Progress.nextId_deliver ..).symm
  | nothing | cancels | disposes | passes | acts => exact Nat.le_refl _

theorem fresh (past : List Event) : (after past).Fresh := by
  induction past with
  | nil => exact ⟨fun _ _ => rfl, fun _ _ => rfl⟩
  | cons e past ih => exact ih.step e

theorem change (past : List Event) (e : Event) (id : Nat) :
    (after past).Change id e ((after past).find? id) ((after (e :: past)).find? id) :=
  change_step (fresh past) e id

end Correlator

end PolyglotLsp
