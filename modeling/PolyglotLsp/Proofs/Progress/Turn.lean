import Mathlib.Logic.Relation
import PolyglotLsp.Proofs.Progress.Correlator

/-!
# A turn in small steps

A whole turn of a listener does nothing that its small steps do not do: taken in a row, with nothing
in between, they lead to the same tokens and listeners (`exists_small_steps`).
-/

namespace PolyglotLsp

open Relation (ReflTransGen)

namespace Listener

/-- A listener that is left alone, after it has looked until nothing waits. -/
def settle (l : Listener) (now : Nat) : Listener × Phase :=
  let timer := if l.queue.isEmpty then l.timer.getD (now + l.idle) else now + l.idle
  ({ l.drain with timer := some timer }, if timer ≤ now then .stopping .completed else .listening)

theorem look_of_queue_nil {l : Listener} (hc : l.cancelled = false) (hq : l.queue = [])
    (now : Nat) : l.look false now = l.settle now := by
  simp [look, settle, drain, hc, hq]

theorem settle_handOver {l : Listener} {payload : Json} {rest : List Json}
    (hq : l.queue = payload :: rest) (now : Nat) :
    ({ l.handOver payload rest with timer := none } : Listener).settle now = l.settle now := by
  simp [settle, drain, handOver, hq]

/-- A turn of such a listener: it goes on, or comes to its end. -/
theorem turn_of_settle (l : Listener) (ho : l.outcome = none) (hc : l.cancelled = false)
    (now : Nat) :
    ((l.settle now).2 = .listening ∧ l.turn false now = (l.settle now).1) ∨
      (l.settle now).2 = .stopping .completed ∧
        l.turn false now = { (l.settle now).1.drain with outcome := some .completed } := by
  simp only [settle, turn, ho, hc, Option.isSome_none, Bool.false_eq_true, if_false]
  generalize (if l.queue.isEmpty then l.timer.getD (now + l.idle) else now + l.idle) = timer
  by_cases expired : timer ≤ now
  · exact .inr ⟨if_pos expired, by simp [expired, drain]⟩
  · exact .inl ⟨if_neg expired, if_neg expired⟩

end Listener

namespace Correlator

/-- One small step of a listener. -/
def Small (id : Nat) (r r' : Correlator) : Prop :=
  ∃ e ∈ [Event.looked id, .unregistered id, .finished id], r.step e = r'

/-- Of two actions of a listener only the second is seen, but it has left if it did so in either. -/
theorem act_act (r : Correlator) {id : Nat} {l l' : Listener} (hi : l.id = id)
    (ht : l'.token = l.token) (phase phase' : Phase) (leaves leaves' : Bool) :
    (r.act id l phase leaves).act id l' phase' leaves' =
      r.act id l' phase' (leaves || leaves') := by
  have once (x : Listener) : (if (if x.id = id then l else x).id = id then l'
      else if x.id = id then l else x) = if x.id = id then l' else x := by
    by_cases hx : x.id = id <;> simp [hx, hi]
  by_cases mine : r.progress.registered.get? l.token = some id
  · cases leaves <;> cases leaves' <;>
      simp [act, Progress.modify, ht, mine, Table.get?_erase, once, Function.comp_def]
  · cases leaves <;> cases leaves' <;>
      simp [act, Progress.modify, ht, mine, once, Function.comp_def]

/-! ## Several steps in a row -/

/-- What a listener can do that is in this phase: small steps lead to the outcome of the action. -/
def Leads (r : Correlator) (id : Nat) (l : Listener) (phase : Phase) (leaves : Bool) : Prop :=
  ReflTransGen (Small id) r (r.act id l phase leaves)

theorem Leads.next {r : Correlator} {id : Nat} {l l' l'' : Listener} {phase phase' phase'' : Phase}
    {leaves leaves' : Bool} (hf : r.find? id = some (l, phase))
    (first : r.Leads id l' phase' leaves) (hi : l'.id = l.id)
    (second : (r.act id l' phase' leaves).find? id = some (l', phase') →
      (r.act id l' phase' leaves).Leads id l'' phase'' leaves')
    (ht : l''.token = l'.token) : r.Leads id l'' phase'' (leaves || leaves') := by
  have hl := (listener?_of_find? hf).1
  have found : (r.act id l' phase' leaves).find? id = some (l', phase') := by
    rw [find?_act leaves hl hi, if_pos rfl]
  have both := ReflTransGen.trans first (second found)
  rwa [act_act r (hi.trans (Progress.id_of_listener? hl)) ht] at both

theorem leads_look {r : Correlator} {id : Nat} {l : Listener}
    (hf : r.find? id = some (l, .listening)) (ho : l.outcome = none) :
    r.Leads id (l.look r.progress.disposed r.now).1 (l.look r.progress.disposed r.now).2 false := by
  obtain ⟨hl, hp⟩ := listener?_of_find? hf
  refine .single ⟨.looked id, by simp, ?_⟩
  simp [step, hl, hp, ho]

theorem leads_unregister {r : Correlator} {id : Nat} {l : Listener} {o : ProgressOutcome}
    (hf : r.find? id = some (l, .stopping o)) : r.Leads id l (.leaving o) true := by
  obtain ⟨hl, hp⟩ := listener?_of_find? hf
  refine .single ⟨.unregistered id, by simp, ?_⟩
  simp [step, hl, hp]

theorem leads_finish {r : Correlator} {id : Nat} {l : Listener} {o : ProgressOutcome}
    (hf : r.find? id = some (l, .leaving o)) (ho : l.outcome = none) :
    r.Leads id (l.finish o) (.leaving o) false := by
  obtain ⟨hl, hp⟩ := listener?_of_find? hf
  refine .single ⟨.finished id, by simp, ?_⟩
  simp [step, hl, hp, ho]

/-- A listener that is left alone looks until nothing waits. -/
theorem leads_settle {queue : List Json} {r : Correlator} {id : Nat} {l : Listener}
    (hq : l.queue = queue) (hf : r.find? id = some (l, .listening)) (ho : l.outcome = none)
    (hd : r.progress.disposed = false) (hc : l.cancelled = false) :
    r.Leads id (l.settle r.now).1 (l.settle r.now).2 false := by
  induction queue generalizing r l with
  | nil =>
    have look := leads_look hf ho
    rwa [hd, Listener.look_of_queue_nil hc hq] at look
  | cons payload rest ih =>
    have look := leads_look hf ho
    have one : l.look false r.now =
        ({ l.handOver payload rest with timer := none }, .listening) := by
      simp [Listener.look, hc, hq]
    rw [hd, one] at look
    rw [← Listener.settle_handOver hq]
    exact look.next hf rfl (fun found => ih rfl found ho hd hc) rfl

/-- A listener that leaves hands over what is left, unless it was disposed of. -/
theorem leads_drain {queue : List Json} {r : Correlator} {id : Nat} {l : Listener}
    {o : ProgressOutcome} (hq : l.queue = queue) (hf : r.find? id = some (l, .leaving o))
    (ho : l.outcome = none) (hd : o ≠ .disposed) :
    r.Leads id { l.drain with outcome := some o } (.leaving o) false := by
  induction queue generalizing r l with
  | nil =>
    have finish := leads_finish hf ho
    have last : l.finish o = { l.drain with outcome := some o } := by
      simp [Listener.finish, Listener.drain, hq]
    rwa [last] at finish
  | cons payload rest ih =>
    have finish := leads_finish hf ho
    have one : l.finish o = l.handOver payload rest := by
      simp [Listener.finish, hq, hd]
    rw [one] at finish
    have all : (l.handOver payload rest).drain = l.drain := by
      simp [Listener.drain, Listener.handOver, hq]
    rw [← all]
    exact finish.next hf rfl (fun found => ih rfl found ho) rfl

/-- A listener that has decided to stop unregisters and comes to its end. -/
theorem leads_end {r : Correlator} {id : Nat} {l l' : Listener} {phase : Phase}
    {o : ProgressOutcome} (hf : r.find? id = some (l, phase))
    (stop : r.Leads id l' (.stopping o) false) (hi : l'.id = l.id) (ho : l'.outcome = none) :
    r.Leads id
      (if o = .disposed then { l' with outcome := some o } else { l'.drain with outcome := some o })
      (.leaving o) true := by
  have left : r.Leads id l' (.leaving o) true := stop.next hf hi leads_unregister rfl
  split
  · next hd =>
    have last : l'.finish o = { l' with outcome := some o } := by
      subst hd
      cases hq : l'.queue <;> simp [Listener.finish, hq]
    rw [← last]
    exact left.next hf hi (fun found => leads_finish found ho)
      (Listener.move_finish true 0 ho o).token
  · next hd => exact left.next hf hi (fun found => leads_drain rfl found ho hd) rfl

theorem leads_turn {r : Correlator} {id : Nat} {l : Listener}
    (hf : r.find? id = some (l, .listening)) (ho : l.outcome = none) :
    ∃ phase, r.Leads id (l.turn r.progress.disposed r.now) phase
      (l.turn r.progress.disposed r.now).outcome.isSome := by
  cases hd : r.progress.disposed with
  | true =>
    have look := leads_look hf ho
    have stop : l.look true r.now = (l, .stopping .disposed) := by simp [Listener.look]
    rw [hd, stop] at look
    refine ⟨.leaving .disposed, ?_⟩
    simpa [Listener.turn, ho] using leads_end hf look rfl ho
  | false =>
    cases hc : l.cancelled with
    | true =>
      have look := leads_look hf ho
      have stop : l.look false r.now = (l, .stopping .cancelled) := by simp [Listener.look, hc]
      rw [hd, stop] at look
      refine ⟨.leaving .cancelled, ?_⟩
      simpa [Listener.turn, ho, hc] using leads_end hf look rfl ho
    | false =>
      have settle := leads_settle rfl hf ho hd hc
      rcases l.turn_of_settle ho hc r.now with ⟨hp, turn⟩ | ⟨hp, turn⟩
      · rw [hp] at settle
        refine ⟨.listening, ?_⟩
        rw [turn]
        simpa [Listener.settle, Listener.drain, ho] using settle
      · rw [hp] at settle
        refine ⟨.leaving .completed, ?_⟩
        rw [turn]
        exact leads_end hf settle rfl ho

/-- A whole turn is the listener's small steps in a row. -/
theorem exists_small_steps {r : Correlator} {id : Nat} {l : Listener}
    (hf : r.find? id = some (l, .listening)) (ho : l.outcome = none) :
    ∃ r', ReflTransGen (Small id) r r' ∧ r'.progress = r.progress.poll r.now id := by
  obtain ⟨hl, hp⟩ := listener?_of_find? hf
  obtain ⟨phase, leads⟩ := leads_turn hf ho
  exact ⟨_, leads, (congrArg Correlator.progress (act_turn hl hp)).symm⟩

end Correlator

end PolyglotLsp
