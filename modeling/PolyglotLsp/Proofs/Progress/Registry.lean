import PolyglotLsp.Proofs.Progress.Correlator

/-!
# Live listeners

In every state that can be reached, a token is registered for a listener exactly if that listener is
live and listens for the token (`registry`). So a token has at most one live listener.
-/

namespace PolyglotLsp.Correlator

/-- The token of a live listener. -/
def live? (r : Correlator) (id : Nat) : Option Token :=
  (r.find? id).bind fun v => if v.1.live v.2 then some v.1.token else none

theorem outcome_of_live? {r : Correlator} {id : Nat} {l : Listener} {phase : Phase}
    {token : Token} (hf : r.find? id = some (l, phase)) (live : r.live? id = some token) :
    l.outcome = none ∧ l.token = token := by
  rw [live?, hf, Option.bind_some] at live
  split at live
  · next hl =>
    refine ⟨?_, Option.some.inj live⟩
    cases phase <;> simp_all [Listener.live]
  · cases live

theorem Fresh.live?_nextId {r : Correlator} (h : r.Fresh) : r.live? r.progress.nextId = none := by
  rw [live?, find?, h.listener _ (Nat.le_refl _)]
  rfl

theorem live?_register {r : Correlator} (fresh : r.Fresh) {token : Token}
    (free : r.progress.isRegistered token = false) (idle id : Nat) :
    ({ r with progress := (r.progress.register token idle).1 } : Correlator).live? id =
      if id = r.progress.nextId then some token else r.live? id := by
  unfold live?
  rw [find?_register fresh free]
  split
  · rfl
  · rfl

theorem live?_deliver (r : Correlator) (token : Token) (payload : Json) (id : Nat) :
    ({ r with progress := (r.progress.deliver token payload).1 } : Correlator).live? id =
      r.live? id := by
  unfold live?
  rw [find?_deliver]
  split
  · rw [Option.bind_map]
    rfl
  · rfl

theorem live?_cancel (r : Correlator) (id id' : Nat) :
    ({ r with progress := r.progress.cancel id } : Correlator).live? id' = r.live? id' := by
  unfold live?
  rw [find?_cancel]
  split
  · next hi =>
    rw [hi, Option.bind_map]
    rfl
  · rfl

/-- A listener stays live unless it leaves. -/
theorem live?_act {r : Correlator} {id : Nat} {l l' : Listener} {phase : Phase} {leaves : Bool}
    (hl : r.progress.listener? id = some l)
    (move : l.Move r.progress.disposed r.now (r.phases id) l' phase leaves) (id' : Nat) :
    (r.act id l' phase leaves).live? id' =
      if id' = id ∧ leaves = true then none else r.live? id' := by
  unfold live?
  rw [find?_act leaves hl move.id]
  by_cases same : id' = id
  · subst same
    cases leaves <;> simp [find?_of_listener? hl, move.live, move.token]
  · simp [same]

/-- A token is registered for a listener exactly if the listener is live and listens for it. -/
def Registry (r : Correlator) : Prop :=
  ∀ token id, r.progress.registered.get? token = some id ↔ r.live? id = some token

theorem Registry.register {r : Correlator} (h : r.Registry) (fresh : r.Fresh) (token : Token)
    (idle : Nat) :
    ({ r with progress := (r.progress.register token idle).1 } : Correlator).Registry := by
  cases free : r.progress.isRegistered token with
  | true =>
    rw [Progress.register_of_registered free]
    exact h
  | false =>
    -- the token is free, so that nobody is live for it
    have nobody (id : Nat) : r.live? id ≠ some token := by
      intro hl
      simp [Progress.isRegistered, (h token id).2 hl] at free
    have unknown := fresh.live?_nextId
    intro token' id
    have entry : (r.progress.register token idle).1.registered.get? token' =
        if token = token' then some r.progress.nextId
        else r.progress.registered.get? token' := by
      simp [Progress.register, free, Table.get?_set]
    rw [entry, live?_register fresh free]
    by_cases new : id = r.progress.nextId
    · subst new
      rw [if_pos rfl]
      split
      · next same => simp [same]
      · next other =>
        rw [h token', unknown]
        simp [other]
    · rw [if_neg new]
      split
      · next same => simp [← same, nobody, Ne.symm new]
      · exact h token' id

/-- A listener that leaves takes its own registration away, and nobody else's. -/
theorem registered_act {r : Correlator} (h : r.Registry) {id : Nat} {l l' : Listener}
    {phase : Phase} {leaves : Bool} (hl : r.progress.listener? id = some l)
    (move : l.Move r.progress.disposed r.now (r.phases id) l' phase leaves) (token : Token) :
    (r.act id l' phase leaves).progress.registered.get? token =
      if leaves = true ∧ r.progress.registered.get? token = some id then none
      else r.progress.registered.get? token := by
  cases leaves with
  | false => simp [act]
  | true =>
    have own : r.progress.registered.get? token = some id → l.token = token := by
      intro registered
      have live := (h token id).1 registered
      exact (outcome_of_live? (find?_of_listener? hl) live).2
    -- the token may be somebody else's by now, and then it stays
    by_cases mine : r.progress.registered.get? l.token = some id
    · have entry : (r.act id l' phase true).progress.registered.get? token =
          if l.token = token then none else r.progress.registered.get? token := by
        simp [act, move.token, mine, Table.get?_erase]
      rw [entry]
      by_cases same : l.token = token
      · simp [← same, mine]
      · simp [same, mt own same]
    · have entry : (r.act id l' phase true).progress.registered = r.progress.registered := by
        simp [act, move.token, mine]
      have other : r.progress.registered.get? token ≠ some id := by
        intro registered
        rw [own registered] at mine
        exact mine registered
      rw [entry]
      simp [other]

theorem Registry.act {r : Correlator} (h : r.Registry) {id : Nat} {l l' : Listener} {phase : Phase}
    {leaves : Bool} (hl : r.progress.listener? id = some l)
    (move : l.Move r.progress.disposed r.now (r.phases id) l' phase leaves) :
    (r.act id l' phase leaves).Registry := by
  intro token id'
  rw [live?_act hl move, registered_act h hl move]
  by_cases left : leaves = true
  · by_cases mine : r.progress.registered.get? token = some id
    · have other (hi : id' ≠ id) : r.live? id' ≠ some token := by
        rw [ne_eq, ← h, mine, Option.some.injEq]
        exact Ne.symm hi
      by_cases hi : id' = id
      · simp [left, mine, hi]
      · simp [left, mine, hi, other hi]
    · by_cases hi : id' = id
      · simp [left, mine, hi]
      · simpa [left, mine, hi] using h token id'
  · simpa [left] using h token id'

theorem Registry.step {r : Correlator} (h : r.Registry) (fresh : r.Fresh) (e : Event) :
    (r.step e).Registry := by
  have effect := effect_step r e
  generalize r.step e = r' at effect
  cases effect with
  | nothing => exact h
  | registers token idle => exact h.register fresh token idle
  | offers _ token payload =>
    intro token' id
    rw [live?_deliver, ← h token' id]
    exact Iff.of_eq (by rw [Progress.registered_deliver])
  | cancels id' =>
    intro token' id
    rw [live?_cancel]
    exact h token' id
  | disposes | passes => exact h
  | acts _ runner _ l l' phase leaves hl move => exact h.act hl move

theorem registry (past : List Event) : (after past).Registry := by
  induction past with
  | nil => exact fun _ _ => ⟨nofun, nofun⟩
  | cons e past ih => exact ih.step (fresh past) e

/-- Once its outcome is known, a listener keeps it and hands nothing over any more. -/
theorem ended_later {past : List Event} {id : Nat} {l : Listener} {o : ProgressOutcome}
    (hl : (after past).progress.listener? id = some l) (ho : l.outcome = some o)
    (later : List Event) :
    ∃ l', (after (later ++ past)).progress.listener? id = some l' ∧ l'.outcome = some o ∧
      l'.handled = l.handled := by
  induction later with
  | nil => exact ⟨l, hl, ho, rfl⟩
  | cons e later ih =>
    obtain ⟨l', hl', ho', handled⟩ := ih
    have found := find?_of_listener? hl'
    have change := change (later ++ past) e id
    rw [found] at change
    generalize hv : (after (e :: (later ++ past))).find? id = v at change
    rw [List.cons_append]
    cases change with
    | untouched => exact ⟨l', (listener?_of_find? hv).1, ho', handled⟩
    | accepts _ _ token payload _ registered =>
      have live := outcome_of_live? found ((registry (later ++ past) token id).1 registered)
      rw [live.1] at ho'
      cases ho'
    | cancelled => exact ⟨_, (listener?_of_find? hv).1, ho', handled⟩
    | moves _ l'' _ phase' leaves _ move =>
      have same : l'' = l' := move.once (by simp [ho'])
      subst same
      exact ⟨l'', (listener?_of_find? hv).1, ho', handled⟩

end PolyglotLsp.Correlator
