import Mathlib.Data.List.Nodup
import PolyglotLsp.Proofs.Dispatch

/-!
# Requests that ask servers once

Requests keep the numbers that they get at their start (`Session.Reachable.numbered`), so that a
request can be followed through a session. If its program asks servers once at most (`AsksOnce`),
then what it has sent after it has asked them is all that it ever sends (`Session.Settles.play`).
-/

namespace PolyglotLsp

variable {σ α : Type} {c : Collaborators σ}

/-! ## Numbers -/

namespace Thread

theorem id_turn (c : Collaborators σ) (edits : List Store.Event) (t : Thread σ α) (turn : Turn)
    (w : World σ) : (t.turn c edits turn w).2.id = t.id := by
  have erased := congrArg Task.id (t.turn_erase c edits turn w).2
  exact erased

end Thread

namespace Session

variable {s : Session σ α}

/-- The requests of a session have different numbers, which have been given out. -/
structure Numbered (s : Session σ α) : Prop where
  distinct : (s.threads.map (·.id)).Nodup
  used : ∀ t ∈ s.threads, t.id < s.nextId

theorem Numbered.of_ids {s' : Session σ α} (h : s.Numbered)
    (ids : s'.threads.map (·.id) = s.threads.map (·.id)) (next : s'.nextId = s.nextId) :
    s'.Numbered := by
  refine ⟨ids ▸ h.distinct, fun t ht => ?_⟩
  have known : t.id ∈ s.threads.map (·.id) := ids ▸ List.mem_map_of_mem ht
  obtain ⟨t', ht', same⟩ := List.mem_map.1 known
  rw [← same, next]
  exact h.used t' ht'

theorem Numbered.spawn (h : s.Numbered) (cancelled : Bool) (p : Prog α) :
    (s.spawn cancelled p).Numbered := by
  refine ⟨?_, fun t ht => ?_⟩
  · simp only [Session.spawn, List.map_append, List.map_cons, List.map_nil]
    refine List.nodup_append.2 ⟨h.distinct, List.nodup_singleton _, fun id hid id' hid' => ?_⟩
    obtain ⟨t, ht, rfl⟩ := List.mem_map.1 hid
    rw [List.mem_singleton.1 hid']
    exact Nat.ne_of_lt (h.used t ht)
  · rcases List.mem_append.1 ht with ht | ht
    · exact Nat.lt_succ_of_lt (h.used t ht)
    · rw [List.mem_singleton.1 ht]
      exact Nat.lt_succ_self _

theorem Reachable.numbered (h : s.Reachable c) : s.Numbered := by
  induction h with
  | new outside => exact ⟨List.nodup_nil, fun _ ht => absurd ht List.not_mem_nil⟩
  | @step s h e ih =>
    cases e with
    | changed | elsewhere | listened | clock => exact ih.of_ids rfl rfl
    | spawned cancelled p => exact ih.spawn cancelled p
    | cancelled id =>
      refine ih.of_ids ?_ rfl
      simp only [Session.step, cancel, List.map_map, Function.comp_def]
      refine List.map_congr_left fun t _ => ?_
      split
      · rfl
      · rfl
    | dropped id =>
      exact ⟨ih.distinct.sublist (List.filter_sublist.map _),
        fun t ht => ih.used t (List.mem_filter.1 ht).1⟩
    | polled place | released place =>
      simp only [Session.step, Session.turn]
      split
      · exact ih
      · next t ht =>
        refine ih.of_ids ?_ rfl
        obtain ⟨inside, rfl⟩ := List.getElem?_eq_some_iff.1 ht
        rw [List.map_set, Thread.id_turn]
        have inside' : place < (s.threads.map (·.id)).length := by simpa using inside
        simpa using List.set_getElem_self inside'

theorem Numbered.eq_of_id {t t' : Thread σ α} (h : s.Numbered) (ht : t ∈ s.threads)
    (ht' : t' ∈ s.threads) (same : t'.id = t.id) : t' = t :=
  List.inj_on_of_nodup_map h.distinct ht' ht same

end Session

/-! ## Asking once -/

/-- Servers are asked by the first of all operations that ask them, and by no other. -/
def AsksOnce (calls : List (Call σ)) (o : Op) : Prop :=
  o.asks = true → ∀ k ∈ calls, k.op.asks = false

theorem free_asksOnce : Free (AsksOnce (σ := σ)) := by
  intro calls o asks _ _ asks'
  rw [asks] at asks'
  cases asks'

namespace World

theorem extends_start_of_quiet (w : World σ) (cancelled : Bool) {o : Op} (h : o.asks = false) :
    w.Extends (w.start c cancelled o).1 [] := by
  obtain ⟨requests, extended, asked⟩ := w.start_extends c cancelled o
  cases requests with
  | nil => exact extended
  | cons x rest =>
    rw [Op.asks_of_request? (asked x List.mem_cons_self)] at h
    cases h

theorem grounded_of_quiet {o : Op} (h : o.asks = false) (pending : o.Pending) :
    grounded o pending = [] := by
  cases o with
  | askFirst | askAll | ask => cases h
  | _ => rfl

/-- An operation all of whose tasks have had their turns sends nothing more. -/
theorem extends_turn_of_grounded {w : World σ} {cancelled : Bool} {o : Op} {pending : o.Pending}
    (h : grounded o pending = []) (turn : Turn) :
    w.Extends (w.turn c cancelled o pending turn).1 [] := by
  cases turn with
  | own => exact w.resume_extends cancelled o pending
  | release server =>
    cases o with
    | askFirst _ _ _ params | askAll _ _ _ params | ask _ _ _ params =>
      cases params with
      | error => exact .rfl
      | ok =>
        simp only [grounded] at h
        simp only [World.turn, release, depart, h, List.find?_nil]
        exact .rfl
    | _ => exact .rfl

theorem grounded_of_turn {w w' : World σ} {cancelled : Bool} {o : Op} {pending pending' : o.Pending}
    {turn : Turn} (h : grounded o pending = [])
    (waits : w.turn c cancelled o pending turn = (w', .waiting pending')) :
    grounded o pending' = [] := by
  cases turn with
  | own => exact (grounded_of_resume waits).trans h
  | release server =>
    simp only [World.turn, Prod.mk.injEq, Op.Progress.waiting.injEq] at waits
    obtain ⟨-, rfl⟩ := waits
    cases o with
    | askFirst _ _ _ params | askAll _ _ _ params | ask _ _ _ params =>
      cases params with
      | error => exact h
      | ok =>
        simp only [grounded] at h
        simp only [release, depart, h, List.find?_nil, grounded]
    | _ => rfl

theorem extends_start_ask (w : World σ) (shape : Shape) (method : String) (params : Json)
    {name : String} {server : Server} (h : w.core.registry.get? name = some server) :
    w.Extends (w.start c false (.ask shape method name (.ok params))).1
      [(server.name, method, params)] := by
  simp only [start, h, Bool.false_eq_true, if_false]
  exact (launch_extends ..).trans (resume_extends ..)

/-- A request to one server goes out when the operation begins. -/
theorem grounded_of_start_ask {w w' : World σ} {shape : Shape} {method name : String}
    {params : Json} {server : Server} (registered : w.core.registry.get? name = some server)
    {pending : FanOut shape.Val}
    (h : w.start c false (.ask shape method name (.ok params)) = (w', .waiting pending)) :
    grounded (.ask shape method name (.ok params)) pending = [] := by
  simp only [start, registered, Bool.false_eq_true, if_false] at h
  exact grounded_of_resume h

end World

namespace Thread

variable {t : Thread σ α} {Q : Post σ α} {edits : List Store.Event}

/-- A request has asked all servers that it asks: it has their answer, or waits for it. -/
def HasAsked (t : Thread σ α) : Prop :=
  (∃ k ∈ t.calls, k.op.asks = true) ∨
    ∃ o pending next, t.state = .blocked o pending next ∧ o.asks = true ∧
      World.grounded o pending = []

/-- What becomes of a request that has asked servers: it sends nothing more. -/
structure Settled (t t' : Thread σ α) : Prop where
  program : t'.program = t.program
  calls : t.calls <+: t'.calls
  sent : t'.sent = t.sent
  asked : t'.HasAsked

theorem Settled.trans {t' t'' : Thread σ α} (h : t.Settled t') (h' : t'.Settled t'') :
    t.Settled t'' :=
  ⟨h'.program.trans h.program, h.calls.trans h'.calls, h'.sent.trans h.sent, h'.asked⟩

theorem HasAsked.settled (h : t.HasAsked) : t.Settled t := ⟨rfl, List.prefix_rfl, rfl, h⟩

theorem settled_run (p : Prog α) (t : Thread σ α) (w : World σ)
    (hw : w.core.store = Store.after edits) (asked : ∃ k ∈ t.calls, k.op.asks = true)
    (hp : p.wp c AsksOnce Q t.calls ⟨w, edits⟩) : t.Settled (t.run c edits p w).2 := by
  induction p generalizing t w with
  | done a => exact ⟨rfl, List.prefix_rfl, rfl, .inl asked⟩
  | op o next ih =>
    obtain ⟨once, hnext⟩ := hp
    have quiet : o.asks = false := by
      obtain ⟨k, hk, asks⟩ := asked
      refine Bool.eq_false_iff.2 fun again => ?_
      have first := once again k hk
      rw [asks] at first
      cases first
    have extended := w.extends_start_of_quiet (c := c) t.cancelled quiet
    simp only [run]
    rcases hs : w.start c t.cancelled o with ⟨w', r | pending⟩ <;> rw [hs] at extended <;>
      dsimp only <;> rw [sends_of_extends extended]
    · have genuine : Call.Genuine c ⟨o, ⟨w, edits⟩, ⟨w', edits⟩, r⟩ :=
        World.start_answered (m := ⟨w, edits⟩) hw hs
      obtain ⟨k, hk, asks⟩ := asked
      have later := ih r (t.answers ⟨o, ⟨w, edits⟩, ⟨w', edits⟩, r⟩) w' (extended.store.trans hw)
        ⟨k, List.mem_append_left _ hk, asks⟩ (hnext _ r genuine)
      exact ⟨later.program, (List.prefix_append ..).trans later.calls, later.sent, later.asked⟩
    · exact ⟨rfl, List.prefix_rfl, rfl, .inl asked⟩

/-- What a request waits for once it has asked servers. -/
theorem HasAsked.grounded {o : Op} {pending : o.Pending} {next : o.Result → Prog α}
    (h : t.HasAsked) (hs : t.state = .blocked o pending next) (once : AsksOnce t.calls o) :
    World.grounded o pending = [] := by
  rcases h with ⟨k, hk, asks⟩ | ⟨o', pending', next', blocked, -, none⟩
  · refine World.grounded_of_quiet (Bool.eq_false_iff.2 fun again => ?_) pending
    have first := once again k hk
    rw [asks] at first
    cases first
  · rw [hs] at blocked
    cases blocked
    exact none

theorem settled_turn (t : Thread σ α) (turn : Turn) (w : World σ)
    (hw : w.core.store = Store.after edits) (h : t.Meets c AsksOnce Q ⟨w, edits⟩)
    (asked : t.HasAsked) : t.Settled (t.turn c edits turn w).2 := by
  cases hs : t.state with
  | ready p =>
    unfold Meets at h
    simp only [hs] at h
    rcases asked with ⟨k, hk, -⟩ | ⟨o, pending, next, blocked, -⟩
    · rw [h.2.1] at hk
      cases hk
    · rw [hs] at blocked
      cases blocked
  | blocked o pending next =>
    unfold Meets at h
    simp only [hs] at h
    obtain ⟨-, since, order, awaits, once, hnext⟩ := h
    have none := asked.grounded hs once
    have extended : w.Extends (w.turn c t.cancelled o pending turn).1 [] :=
      World.extends_turn_of_grounded none turn
    simp only [Thread.turn, hs]
    rcases hr : w.turn c t.cancelled o pending turn with ⟨w', r | pending'⟩ <;>
      rw [hr] at extended <;> dsimp only <;> rw [sends_of_extends extended]
    · have genuine := World.turn_answered hr since hw order awaits
      have asked' : ∃ k ∈ (t.answers ⟨o, t.since, ⟨w', edits⟩, r⟩).calls, k.op.asks = true := by
        rcases asked with ⟨k, hk, asks⟩ | ⟨o', pending', next', blocked, asks, -⟩
        · exact ⟨k, List.mem_append_left _ hk, asks⟩
        · rw [hs] at blocked
          cases blocked
          exact ⟨_, List.mem_append_right _ List.mem_cons_self, asks⟩
      have later := settled_run (next r) (t.answers ⟨o, t.since, ⟨w', edits⟩, r⟩) w'
        (extended.store.trans hw) asked' (hnext _ r genuine)
      exact ⟨later.program, (List.prefix_append ..).trans later.calls, later.sent, later.asked⟩
    · refine ⟨rfl, List.prefix_rfl, rfl, ?_⟩
      rcases asked with earlier | ⟨o', _, _, blocked, asks, -⟩
      · exact .inl earlier
      · rw [hs] at blocked
        cases blocked
        exact .inr ⟨o, pending', next, rfl, asks, World.grounded_of_turn none hr⟩
  | finished a =>
    simp only [Thread.turn, hs]
    exact asked.settled

/-- A request that asks a registered server and is not cancelled sends it one request. -/
theorem sent_run_ask {shape : Shape} {method name : String} {params : Json}
    {next : Except RouterError (Option shape.Val) → Prog α} (w : World σ) {server : Server}
    (hw : w.core.store = Store.after edits) (active : t.cancelled = false)
    (registered : w.core.registry.get? name = some server)
    (hp : (Prog.op (.ask shape method name (.ok params)) next).wp c AsksOnce Q t.calls
      ⟨w, edits⟩) :
    let t' := (t.run c edits (.op (.ask shape method name (.ok params)) next) w).2
    t'.program = t.program ∧ t.calls <+: t'.calls ∧
      t'.sent = t.sent ++ [⟨server.name, method, params, t.calls⟩] ∧ t'.HasAsked := by
  obtain ⟨-, hnext⟩ := hp
  have extended := w.extends_start_ask (c := c) shape method params registered
  have sends (w' : World σ) (h : w.Extends w' [(server.name, method, params)]) :
      (t.sends w w').sent = t.sent ++ [⟨server.name, method, params, t.calls⟩] := by
    simp [Thread.sends, h.requestsUpTo]
  simp only [run, active]
  rcases hs : w.start c false (.ask shape method name (.ok params)) with ⟨w', r | pending⟩ <;>
    rw [hs] at extended <;> dsimp only
  · have genuine := World.start_answered (m := ⟨w, edits⟩) hw hs
    have later := settled_run (next r) ((t.sends w w').answers
      ⟨.ask shape method name (.ok params), ⟨w, edits⟩, ⟨w', edits⟩, r⟩) w'
      (extended.store.trans hw) ⟨_, List.mem_append_right _ List.mem_cons_self, rfl⟩
      (hnext _ r genuine)
    exact ⟨later.program, (List.prefix_append ..).trans later.calls,
      later.sent.trans (sends w' extended), later.asked⟩
  · have none := World.grounded_of_start_ask (c := c) registered hs
    exact ⟨rfl, List.prefix_rfl, sends w' extended, .inr ⟨_, pending, next, rfl, rfl, none⟩⟩

end Thread

namespace Session

variable {s : Session σ α} {t : Thread σ α} {Q : Post σ α}

/-- Whoever has the number of a request that has asked servers is that request, settled. -/
structure Settles (t : Thread σ α) (s : Session σ α) : Prop where
  used : t.id < s.nextId
  settled : ∀ t' ∈ s.threads, t'.id = t.id → t.Settled t'

theorem settles_of_hasAsked (h : s.Reachable c) (ht : t ∈ s.threads) (asked : t.HasAsked) :
    s.Settles t := by
  refine ⟨h.numbered.used t ht, fun t' ht' same => ?_⟩
  rw [h.numbered.eq_of_id ht ht' same]
  exact asked.settled

theorem Settles.step (settles : s.Settles t) (h : s.Reachable c)
    (once : ∀ m : Moment σ, m.Sound → t.program.wp c AsksOnce Q [] m) (e : Event σ α) :
    (s.step c e).Settles t := by
  cases e with
  | changed | elsewhere | listened | clock => exact ⟨settles.used, settles.settled⟩
  | spawned cancelled p =>
    refine ⟨Nat.lt_succ_of_lt settles.used, fun t' ht' same => ?_⟩
    rcases List.mem_append.1 ht' with ht' | ht'
    · exact settles.settled t' ht' same
    · rw [List.mem_singleton.1 ht'] at same
      exact absurd same (Nat.ne_of_gt settles.used)
  | cancelled id =>
    refine ⟨settles.used, fun t' ht' same => ?_⟩
    obtain ⟨t'', ht'', rfl⟩ := List.mem_map.1 ht'
    split at same
    · have before := settles.settled t'' ht'' same
      rw [if_pos ‹_›]
      exact ⟨before.program, before.calls, before.sent, before.asked⟩
    · rw [if_neg ‹_›]
      exact settles.settled t'' ht'' same
  | dropped id =>
    exact ⟨settles.used, fun t' ht' same => settles.settled t' (List.mem_filter.1 ht').1 same⟩
  | polled | released =>
    simp only [Session.step, Session.turn]
    split
    · exact settles
    · next t'' ht'' =>
      refine ⟨settles.used, fun t' ht' same => ?_⟩
      rcases List.mem_or_eq_of_mem_set ht' with ht' | rfl
      · exact settles.settled t' ht' same
      · rw [Thread.id_turn] at same
        have member : t'' ∈ s.threads := List.mem_of_getElem? ht''
        have before := settles.settled t'' member same
        have meets := h.meets member (before.program ▸ once)
        exact before.trans (t''.settled_turn _ s.world h.lawful.1 meets before.asked)

/-- Whatever happens later, a request that has asked servers sends nothing more. -/
theorem Settles.play (settles : s.Settles t) (h : s.Reachable c)
    (once : ∀ m : Moment σ, m.Sound → t.program.wp c AsksOnce Q [] m)
    (events : List (Event σ α)) : (s.play c events).Settles t := by
  induction events generalizing s with
  | nil => exact settles
  | cons e events ih => exact ih (settles.step h once e) (h.step e)

end Session

end PolyglotLsp
