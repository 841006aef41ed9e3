import PolyglotLsp.Progress

/-!
# Moves of a listener

`Progress.poll` gives a listener a whole turn at once. Where listeners run beside everything else, a
turn falls into smaller moves, and anything may happen between them: a listener looks once, which
hands over one payload or makes it decide to stop; it unregisters; it hands over what is left, one
payload at a time; and at last its outcome is known.

All moves, whole turns among them, keep the same few facts (`Move`): no payload is lost or changes
its place, an outcome that was decided on stays, and one is decided on for a reason (`Decision`).
-/

namespace PolyglotLsp

/-- How far a listener is. One that has decided to stop is still registered; one that leaves is not,
and hands over what was accepted before. -/
inductive Phase where
  | listening
  | stopping (outcome : ProgressOutcome)
  | leaving (outcome : ProgressOutcome)
  deriving DecidableEq

namespace Listener

/-- Hands one payload over. -/
def handOver (l : Listener) (payload : Json) (rest : List Json) : Listener :=
  { l with handled := l.handled ++ [payload], queue := rest }

/-- One look of a listener that listens. -/
def look (l : Listener) (disposed : Bool) (now : Nat) : Listener × Phase :=
  if disposed then (l, .stopping .disposed)
  else if l.cancelled then (l, .stopping .cancelled)
  else
    match l.queue with
    | payload :: rest => ({ l.handOver payload rest with timer := none }, .listening)
    | [] =>
      let timer := l.timer.getD (now + l.idle)
      ({ l with timer := some timer }, if timer ≤ now then .stopping .completed else .listening)

/-- The next thing that a listener does after it has unregistered. -/
def finish (l : Listener) (outcome : ProgressOutcome) : Listener :=
  match l.queue with
  | payload :: rest =>
    if outcome = .disposed then { l with outcome := some outcome } else l.handOver payload rest
  | [] => { l with outcome := some outcome }

/-- The outcome that a listener has decided on. -/
def decided? (l : Listener) : Phase → Option ProgressOutcome
  | .listening => l.outcome
  | .stopping outcome | .leaving outcome => some outcome

/-- A listener is live until it has unregistered. -/
def live (l : Listener) : Phase → Bool
  | .listening | .stopping _ => l.outcome.isNone
  | .leaving _ => false

/-- The idle time is not up before the listener has been quiet for long enough. -/
def Timed (l : Listener) (since : Nat) : Prop := ∀ t, l.timer = some t → since + l.idle ≤ t

/-- Since when a listener is quiet that was so before a move. -/
def quiet (l l' : Listener) (since now : Nat) : Nat :=
  if l'.handled.length = l.handled.length then since else now

/-- Why a listener decides on an outcome. -/
structure Decision (disposed : Bool) (now : Nat) (l l' : Listener) (o : ProgressOutcome) :
    Prop where
  of_disposed : o = .disposed ↔ disposed = true
  of_cancelled : o = .cancelled ↔ disposed = false ∧ l.cancelled = true
  of_completed : o = .completed → l'.queue = [] ∧
    ∀ since, since ≤ now → l.Timed since → quiet l l' since now + l.idle ≤ now

/-- What every move of a listener keeps. -/
structure Move (disposed : Bool) (now : Nat) (l : Listener) (phase : Phase) (l' : Listener)
    (phase' : Phase) (leaves : Bool) : Prop where
  id : l'.id = l.id
  token : l'.token = l.token
  idle : l'.idle = l.idle
  cancelled : l'.cancelled = l.cancelled
  live : l'.live phase' = (l.live phase && !leaves)
  order : l'.handled ++ l'.queue = l.handled ++ l.queue
  once : l.outcome ≠ none → l' = l
  emptied : l.outcome = none → ∀ o, l'.outcome = some o → o ≠ .disposed → l'.queue = []
  outcome : l.outcome = none → ∀ o, l'.outcome = some o → l'.decided? phase' = some o
  kept : ∀ o, l.decided? phase = some o → l'.decided? phase' = some o
  decides : l.decided? phase = none → ∀ o, l'.decided? phase' = some o →
    Decision disposed now l l' o
  timed : l'.decided? phase' = none → ∀ since, since ≤ now → l.Timed since →
    l'.Timed (quiet l l' since now)

theorem quiet_append {l l' : Listener} {taken : List Json} (h : l'.handled = l.handled ++ taken)
    (since now : Nat) : quiet l l' since now = if taken = [] then since else now := by
  unfold quiet
  rw [h]
  cases taken with
  | nil => simp
  | cons payload taken => simp

theorem quiet_le {l l' : Listener} {since now : Nat} (h : since ≤ now) :
    quiet l l' since now ≤ now := by
  unfold quiet
  split
  · exact h
  · exact Nat.le_refl _

theorem move_unregister (disposed : Bool) (now : Nat) (l : Listener) (o : ProgressOutcome) :
    Move disposed now l (.stopping o) l (.leaving o) true where
  id := rfl
  token := rfl
  idle := rfl
  cancelled := rfl
  live := by simp [live]
  order := rfl
  once _ := rfl
  emptied hn o ho := by simp [hn] at ho
  outcome hn o ho := by simp [hn] at ho
  kept _ ho := ho
  decides := nofun
  timed := nofun

theorem move_finish (disposed : Bool) (now : Nat) {l : Listener} (hl : l.outcome = none)
    (o : ProgressOutcome) :
    Move disposed now l (.leaving o) (l.finish o) (.leaving o) false := by
  unfold finish
  split
  · next payload rest hq =>
    split
    · next ho =>
      subst ho
      exact {
        id := rfl, token := rfl, idle := rfl, cancelled := rfl, live := rfl, order := rfl
        once := fun hn => absurd hl hn
        emptied := fun _ o ho hd => absurd (Option.some.inj ho).symm hd
        outcome := fun _ o ho => ho
        kept := fun _ ho => ho
        decides := nofun
        timed := nofun }
    · exact {
        id := rfl, token := rfl, idle := rfl, cancelled := rfl, live := rfl
        order := by simp [handOver, hq]
        once := fun hn => absurd hl hn
        emptied := fun _ o ho => by simp [handOver, hl] at ho
        outcome := fun _ o ho => by simp [handOver, hl] at ho
        kept := fun _ ho => ho
        decides := nofun
        timed := nofun }
  · next hq =>
    exact {
      id := rfl, token := rfl, idle := rfl, cancelled := rfl, live := rfl, order := rfl
      once := fun hn => absurd hl hn
      emptied := fun _ _ _ _ => hq
      outcome := fun _ o ho => ho
      kept := fun _ ho => ho
      decides := nofun
      timed := nofun }

section Listening

variable {disposed : Bool} {now : Nat} {l : Listener}

/-- A listener goes on, perhaps after it has handed something over. -/
theorem move_on (hl : l.outcome = none) {taken rest : List Json} (hq : l.queue = taken ++ rest)
    {timer : Option Nat}
    (timed : ∀ t, timer = some t → ∀ since, since ≤ now → l.Timed since →
      (if taken = [] then since else now) + l.idle ≤ t) :
    Move disposed now l .listening
      { l with handled := l.handled ++ taken, queue := rest, timer } .listening false where
  id := rfl
  token := rfl
  idle := rfl
  cancelled := rfl
  live := by simp [live]
  order := by simp [hq]
  once hn := absurd hl hn
  emptied _ o ho := by simp [hl] at ho
  outcome _ o ho := ho
  kept o ho := by simp [decided?, hl] at ho
  decides _ o ho := by simp [decided?, hl] at ho
  timed _ since hs ht t hn := by
    rw [quiet_append rfl]
    exact timed t hn since hs ht

/-- A listener decides to stop. -/
theorem move_stop (hl : l.outcome = none) {timer : Option Nat} {o : ProgressOutcome}
    (decision : Decision disposed now l { l with timer } o) :
    Move disposed now l .listening { l with timer } (.stopping o) false where
  id := rfl
  token := rfl
  idle := rfl
  cancelled := rfl
  live := by simp [live]
  order := rfl
  once hn := absurd hl hn
  emptied _ o ho := by simp [hl] at ho
  outcome _ o ho := by simp [hl] at ho
  kept o ho := by simp [decided?, hl] at ho
  decides _ o ho := by
    cases ho
    exact decision
  timed := nofun

/-- A listener ends in one turn. -/
theorem move_end (hl : l.outcome = none) {taken rest : List Json} (hq : l.queue = taken ++ rest)
    {timer : Option Nat} {o : ProgressOutcome} (hr : o ≠ .disposed → rest = [])
    (decision : Decision disposed now l
      { l with handled := l.handled ++ taken, queue := rest, timer, outcome := some o } o) :
    Move disposed now l .listening
      { l with handled := l.handled ++ taken, queue := rest, timer, outcome := some o }
      .listening true where
  id := rfl
  token := rfl
  idle := rfl
  cancelled := rfl
  live := by simp [live]
  order := by simp [hq]
  once hn := absurd hl hn
  emptied _ o' ho := by
    cases ho
    exact hr
  outcome _ o ho := ho
  kept o ho := by simp [decided?, hl] at ho
  decides _ o' ho := by
    cases ho
    exact decision
  timed := nofun

/-- The idle time that a listener finds when nothing waits. -/
theorem le_getD_timer {since : Nat} (hs : since ≤ now) (ht : l.Timed since) :
    since + l.idle ≤ l.timer.getD (now + l.idle) := by
  cases h : l.timer with
  | none =>
    rw [Option.getD_none]
    omega
  | some t => exact ht t h

theorem decision_disposed (now : Nat) (l l' : Listener) : Decision true now l l' .disposed :=
  ⟨by simp, by simp, nofun⟩

theorem decision_cancelled (now : Nat) (l' : Listener) (hc : l.cancelled = true) :
    Decision false now l l' .cancelled :=
  ⟨by simp, by simp [hc], nofun⟩

theorem decision_completed {l' : Listener} (hc : l.cancelled = false) (hq : l'.queue = [])
    (expired : ∀ since, since ≤ now → l.Timed since → quiet l l' since now + l.idle ≤ now) :
    Decision false now l l' .completed :=
  ⟨by simp, by simp [hc], fun _ => ⟨hq, expired⟩⟩

theorem move_look (hl : l.outcome = none) (disposed : Bool) (now : Nat) :
    Move disposed now l .listening (l.look disposed now).1 (l.look disposed now).2 false := by
  unfold look
  split
  · next hd =>
    subst hd
    exact move_stop hl (decision_disposed now l _)
  · next hd =>
    obtain rfl := Bool.eq_false_iff.2 hd
    split
    · next hc => exact move_stop hl (decision_cancelled now _ hc)
    · next hc =>
      have hc := Bool.eq_false_iff.2 hc
      split
      · next payload rest hq =>
        exact move_on hl (show l.queue = [payload] ++ rest from hq) nofun
      · next hq =>
        dsimp only
        split
        · next expired =>
          refine move_stop hl (decision_completed hc hq fun since hs ht => ?_)
          rw [quiet, if_pos rfl]
          exact Nat.le_trans (le_getD_timer hs ht) expired
        · have timed : ∀ t, some (l.timer.getD (now + l.idle)) = some t → ∀ since, since ≤ now →
              l.Timed since → (if ([] : List Json) = [] then since else now) + l.idle ≤ t := by
            rintro t ⟨⟩ since hs ht
            exact le_getD_timer hs ht
          simpa using move_on hl (show l.queue = [] ++ l.queue from rfl) timed

theorem move_turn (l : Listener) (disposed : Bool) (now : Nat) :
    Move disposed now l .listening (l.turn disposed now) .listening
      (l.turn disposed now).outcome.isSome := by
  unfold turn
  split
  · next hl =>
    have hl : l.outcome ≠ none := by
      intro hn
      simp [hn] at hl
    exact {
      id := rfl, token := rfl, idle := rfl, cancelled := rfl, order := rfl
      live := by simp [live]
      once := fun _ => rfl
      emptied := fun hn => absurd hn hl
      outcome := fun hn => absurd hn hl
      kept := fun _ ho => ho
      decides := fun hn => absurd hn hl
      timed := fun hn => absurd hn hl }
  · next hl =>
    have hl : l.outcome = none := by simpa using hl
    have all : l.queue = l.queue ++ [] := (List.append_nil _).symm
    split
    · next hd =>
      subst hd
      simpa using move_end hl (show l.queue = [] ++ l.queue from rfl) (absurd rfl)
        (decision_disposed now l _)
    · next hd =>
      obtain rfl := Bool.eq_false_iff.2 hd
      split
      · next hc => exact move_end hl all (fun _ => rfl) (decision_cancelled now _ hc)
      · next hc =>
        have hc := Bool.eq_false_iff.2 hc
        dsimp only
        generalize ht : (if l.queue.isEmpty then l.timer.getD (now + l.idle) else now + l.idle) =
          timer
        have timed : ∀ since, since ≤ now → l.Timed since →
            (if l.queue = [] then since else now) + l.idle ≤ timer := by
          intro since hs hl
          rw [← ht]
          cases hq : l.queue with
          | nil => exact le_getD_timer hs hl
          | cons payload rest => exact Nat.le_refl _
        split
        · next expired =>
          refine move_end hl all (fun _ => rfl) (decision_completed hc rfl fun since hs hl => ?_)
          rw [quiet_append rfl]
          exact Nat.le_trans (timed since hs hl) expired
        · have timed : ∀ t, some timer = some t → ∀ since, since ≤ now → l.Timed since →
              (if l.queue = [] then since else now) + l.idle ≤ t := by
            rintro t ⟨⟩
            exact timed
          simpa [drain, hl] using move_on hl all timed

end Listening

end Listener

end PolyglotLsp
