import PolyglotLsp.Proofs.Progress.Registry

/-!
# Payloads arrive once and in order

Every payload that is accepted belongs to the one listener that is live for its token at that
moment. What a listener has handed over, followed by what waits in its queue, is at all times what
was accepted for it, in the order of acceptance (`kept`). A listener that was not disposed of has
nothing left in its queue when its outcome is known.
-/

namespace PolyglotLsp.Correlator

/-- What the correlator answers to whoever offers a payload. -/
def takes (r : Correlator) : Event → Bool
  | .delivered token payload => (r.progress.deliver token payload).2
  | .notified name params => (r.progress.deliverNotification name params).2
  | _ => false

/-- The payloads that were accepted for a token while a listener was live for it, the first one
first. -/
def accepted (id : Nat) : List Event → List Json
  | [] => []
  | e :: past =>
    match e.offer? with
    | none => accepted id past
    | some (token, payload) =>
      if (after past).takes e = true ∧ (after past).live? id = some token then
        accepted id past ++ [payload]
      else accepted id past

theorem takes_of_offer? (r : Correlator) {e : Event} {token : Token} {payload : Json}
    (he : e.offer? = some (token, payload)) :
    r.takes e = (r.progress.registered.get? token).isSome := by
  have answer : (r.progress.deliver token payload).2 =
      (r.progress.registered.get? token).isSome := by
    unfold Progress.deliver
    split <;> simp [*]
  cases e with
  | delivered =>
    cases he
    exact answer
  | notified name params =>
    have he : Progress.offer? name params = some (token, payload) := he
    rw [takes, Progress.deliverNotification_eq, he]
    exact answer
  | registered | cancelled | disposed | passed | polled | looked | unregistered | finished =>
    cases he

/-- A payload that is offered to a live listener is accepted. -/
theorem accepted_of_live {past : List Event} {e : Event} {id : Nat} {token : Token} {payload : Json}
    (he : e.offer? = some (token, payload)) (live : (after past).live? id = some token) :
    accepted id (e :: past) = accepted id past ++ [payload] := by
  have taken : (after past).takes e = true := by
    rw [takes_of_offer? _ he, (registry past token id).2 live]
    rfl
  rw [accepted, he]
  exact if_pos ⟨taken, live⟩

theorem accepted_of_not_live {past : List Event} {e : Event} {id : Nat}
    (h : ∀ token payload, e.offer? = some (token, payload) → (after past).live? id ≠ some token) :
    accepted id (e :: past) = accepted id past := by
  cases he : e.offer? with
  | none => rw [accepted, he]
  | some offer =>
    rw [accepted, he]
    exact if_neg fun ⟨_, live⟩ => h offer.1 offer.2 he live

/-- A listener has the payloads that were accepted for it, those that it has handed over first. -/
def Keeps (payloads : List Json) : Option (Listener × Phase) → Prop
  | none => payloads = []
  | some (l, _) => l.handled ++ l.queue = payloads ∧
      ∀ o, l.outcome = some o → o ≠ .disposed → l.queue = []

theorem kept (past : List Event) (id : Nat) :
    Keeps (accepted id past) ((after past).find? id) := by
  induction past with
  | nil => rfl
  | cons e past ih =>
    have change := change past e id
    generalize hv : (after past).find? id = v at ih change
    generalize (after (e :: past)).find? id = v' at change
    have other (he : e.offer? = none) : accepted id (e :: past) = accepted id past :=
      accepted_of_not_live (by simp [he])
    cases change with
    | untouched _ elsewhere =>
      -- what is offered here goes to another listener
      rw [accepted_of_not_live]
      · exact ih
      · intro token payload he live
        have unknown := elsewhere token payload he ((registry past token id).2 live)
        rw [live?, hv, unknown] at live
        cases live
    | born token idle he =>
      subst he
      rw [other rfl, show accepted id past = [] from ih]
      exact ⟨rfl, fun o ho => by cases ho⟩
    | accepts l phase token payload he registered =>
      -- whoever is registered is live, and its outcome is open
      have live := (registry past token id).1 registered
      have undecided := (outcome_of_live? hv live).1
      rw [accepted_of_live he live, ← ih.1]
      refine ⟨(List.append_assoc ..).symm, fun o ho => ?_⟩
      rw [undecided] at ho
      cases ho
    | cancelled l phase he =>
      subst he
      rw [other rfl]
      exact ih
    | moves l l' phase phase' leaves he move =>
      rw [other (Event.offer?_of_runner? he), ← ih.1]
      refine ⟨move.order, fun o ho hd => ?_⟩
      by_cases ended : l.outcome = none
      · exact move.emptied ended o ho hd
      · have same := move.once ended
        subst same
        exact ih.2 o ho hd

/-- What a listener whose outcome is known has handed over: all that was accepted for its token
while it was live, or, if it was disposed of, the first part of that. It hands nothing over after
that. -/
theorem handled_of_outcome (past : List Event) {id : Nat} {l : Listener} {o : ProgressOutcome}
    (hl : (after past).progress.listener? id = some l) (ho : l.outcome = some o) :
    (o ≠ .disposed → l.handled = accepted id past) ∧
      (o = .disposed → l.handled <+: accepted id past) ∧
      ∀ later, ∃ l', (after (later ++ past)).progress.listener? id = some l' ∧
        l'.handled = l.handled := by
  have keeps := kept past id
  rw [find?_of_listener? hl] at keeps
  refine ⟨fun hd => ?_, fun _ => ?_, fun later => ?_⟩
  · rw [← keeps.1, keeps.2 o ho hd, List.append_nil]
  · rw [← keeps.1]
    exact List.prefix_append ..
  · obtain ⟨l', hl', -, handled⟩ := ended_later hl ho later
    exact ⟨l', hl', handled⟩

/-- A second payload is accepted after the listener has decided to stop, and before it has
unregistered. -/
def latecomer : List Event :=
  [.finished 1, .finished 1, .unregistered 1, .delivered (.number 7) (.str "late"), .looked 1,
    .passed 5, .looked 1, .looked 1, .delivered (.number 7) (.str "early"),
    .registered (.number 7) 5]

theorem handled_of_outcome_latecomer :
    ∃ l, (after latecomer).progress.listener? 1 = some l ∧ l.outcome = some .completed ∧
      accepted 1 latecomer = [.str "early", .str "late"] ∧
      l.handled = accepted 1 latecomer := by
  have hl : (after latecomer).progress.listener? 1 = some ⟨1, .number 7, 5, false, [], some 5,
      [.str "early", .str "late"], some .completed⟩ := rfl
  exact ⟨_, hl, rfl, rfl, (handled_of_outcome latecomer hl rfl).1 nofun⟩

end PolyglotLsp.Correlator
