import PolyglotLsp.Proofs.Session.Frame
import PolyglotLsp.Proofs.Session.Logic

/-!
# A request turn by turn

A request takes turns, and so do the tasks that it spawns for servers. Between two of them anything
may happen, so that each turn is taken in a world of its own (`TaskState.turns`). In a session,
every call of a request that has not been cancelled is an operation that was asked in one world and
took turns in others until it answered, and what servers received from the request is what they
received in these turns, call by call (`Call.Ran`, `Session.Reachable.logged`). An operation that
asks nobody anything sends nothing (`TaskState.sent_of_silent`).
-/

namespace PolyglotLsp

variable {σ α : Type} {c : Collaborators σ}

/-! ## Turns in given worlds -/

namespace TaskState

/-- How a request stands when it is not cancelled and these turns have been taken, each in a world,
and what servers have received from it meanwhile. -/
def turns (c : Collaborators σ) :
    TaskState α → List (Turn × World σ) → TaskState α × List (String × String × Json)
  | state, [] => (state, [])
  | state, (turn, w) :: later =>
    let (w', next) := w.poll c false turn state
    let (last, sent) := next.turns c later
    (last, w.requestsUpTo w' ++ sent)

theorem turns_cons (state : TaskState α) (turn : Turn) (w : World σ)
    (later : List (Turn × World σ)) :
    state.turns c ((turn, w) :: later) =
      (((w.poll c false turn state).2.turns c later).1,
        w.requestsUpTo (w.poll c false turn state).1 ++
          ((w.poll c false turn state).2.turns c later).2) := rfl

theorem turns_append (state : TaskState α) (looks later : List (Turn × World σ)) :
    state.turns c (looks ++ later) =
      (((state.turns c looks).1.turns c later).1,
        (state.turns c looks).2 ++ ((state.turns c looks).1.turns c later).2) := by
  induction looks generalizing state with
  | nil => rfl
  | cons look looks ih =>
    obtain ⟨turn, w⟩ := look
    simp only [List.cons_append, turns_cons, ih, List.append_assoc]

theorem turns_finished (a : α) (looks : List (Turn × World σ)) :
    (finished a).turns c looks = (.finished a, []) := by
  induction looks with
  | nil => rfl
  | cons look looks ih =>
    obtain ⟨turn, w⟩ := look
    rw [turns_cons]
    simp only [World.poll, ih, World.Extends.rfl.requestsUpTo, List.append_nil]

end TaskState

/-! ## Single operations -/

namespace World

variable {o : Op}

/-- The state of a request that consists of one operation. -/
def progressed : o.Progress → TaskState o.Result
  | .answered r => .finished r
  | .waiting pending => .blocked o pending .done

theorem eq_of_finished {p : o.Progress} {r : o.Result} (h : progressed p = .finished r) :
    p = .answered r := by
  cases p with
  | answered r' =>
    cases h
    rfl
  | waiting pending => cases h

theorem poll_call (w : World σ) :
    w.poll c false .own (.ready (.call o)) =
      ((w.start c false o).1, progressed (w.start c false o).2) := by
  simp only [poll, Prog.call, run]
  rcases w.start c false o with ⟨w', r | pending⟩
  · rfl
  · rfl

theorem poll_blocked (w : World σ) (pending : o.Pending) (turn : Turn) :
    w.poll c false turn (.blocked o pending .done) =
      ((w.turn c false o pending turn).1, progressed (w.turn c false o pending turn).2) := by
  simp only [poll]
  rcases w.turn c false o pending turn with ⟨w', r | pending'⟩
  · rfl
  · rfl

/-- Nothing is sent for an operation that asks nobody anything. -/
theorem Extends.of_silent {w w' : World σ} (silent : o.request? = none)
    (h : ∃ requests, w.Extends w' requests ∧ ∀ x ∈ requests, o.request? = some x.2) :
    w.Extends w' [] := by
  obtain ⟨requests, extended, asked⟩ := h
  cases requests with
  | nil => exact extended
  | cons x rest => cases silent.symm.trans (asked x List.mem_cons_self)

end World

namespace TaskState

variable {o : Op}

theorem sent_progressed (silent : o.request? = none) (p : o.Progress)
    (looks : List (Turn × World σ)) : ((World.progressed p).turns c looks).2 = [] := by
  induction looks generalizing p with
  | nil => rfl
  | cons look looks ih =>
    obtain ⟨turn, w⟩ := look
    cases p with
    | answered r => rw [World.progressed, turns_finished]
    | waiting pending =>
      have extended := World.Extends.of_silent silent (w.turn_extends c false o pending turn)
      rw [World.progressed, turns_cons, World.poll_blocked]
      dsimp only
      rw [extended.requestsUpTo, ih, List.append_nil]

theorem sent_of_silent (silent : o.request? = none) (w : World σ)
    (looks : List (Turn × World σ)) :
    ((ready (.call o)).turns c ((.own, w) :: looks)).2 = [] := by
  have extended := World.Extends.of_silent silent (w.start_extends c false o)
  rw [turns_cons, World.poll_call]
  dsimp only
  rw [extended.requestsUpTo, sent_progressed silent, List.append_nil]

end TaskState

/-! ## Requests of a session -/

/-- An operation that was asked in one world, and took turns in others, has answered at last.
Servers have received these requests meanwhile. -/
def Call.Ran (c : Collaborators σ) (k : Call σ) (requests : List (String × String × Json)) : Prop :=
  ∃ looks, (TaskState.ready (.call k.op)).turns c ((.own, k.asked.world) :: looks) =
    (.finished k.result, requests)

def Sent.request (x : Sent σ) : String × String × Json := (x.server, x.method, x.params)

namespace Thread

variable {t : Thread σ α} {w w' : World σ} {edits : List Store.Event}

/-- The record of a request that has not been cancelled: its calls took turns until they answered,
and servers received what they received in these turns and, last, for what is being asked. -/
def Logged (c : Collaborators σ) (t : Thread σ α) (asking : List (String × String × Json)) : Prop :=
  ∃ requests, List.Forall₂ (Call.Ran c) t.calls requests ∧
    t.sent.map (·.request) = requests.flatten ++ asking

theorem Logged.sends {asking requests : List (String × String × Json)} (h : t.Logged c asking)
    (extended : w.Extends w' requests) : (t.sends w w').Logged c (asking ++ requests) := by
  obtain ⟨earlier, ran, sent⟩ := h
  refine ⟨earlier, ran, ?_⟩
  simp only [Thread.sends, List.map_append, sent, extended.requestsUpTo, List.map_map,
    List.append_assoc]
  exact congrArg _ (congrArg _ (List.map_id _))

theorem Logged.answers {k : Call σ} {requests : List (String × String × Json)}
    (h : t.Logged c requests) (ran : k.Ran c requests) : (t.answers k).Logged c [] := by
  obtain ⟨earlier, before, sent⟩ := h
  refine ⟨earlier ++ [requests], ?_, ?_⟩
  · exact List.rel_append before (.cons ran .nil)
  · simpa [Thread.answers] using sent

theorem Logged.ran {asking : List (String × String × Json)} (h : t.Logged c asking) {k : Call σ}
    (hk : k ∈ t.calls) : ∃ requests, k.Ran c requests := by
  obtain ⟨requests, ran, -⟩ := h
  generalize t.calls = calls at ran hk
  induction ran with
  | nil => cases hk
  | @cons k' requests' _ _ first _ ih =>
    rcases List.mem_cons.1 hk with rfl | hk
    · exact ⟨requests', first⟩
    · exact ih hk

/-- How a request stands that has not been cancelled. -/
def Uninterrupted (c : Collaborators σ) (t : Thread σ α) : Prop :=
  match t.state with
  | .blocked o pending _ => ∃ looks requests,
    (TaskState.ready (.call o)).turns c ((.own, t.since.world) :: looks) =
      (.blocked o pending .done, requests) ∧ t.Logged c requests
  | _ => t.Logged c []

theorem uninterrupted_run (p : Prog α) (t : Thread σ α) (w : World σ)
    (uncancelled : t.cancelled = false) (h : t.Logged c []) :
    (t.run c edits p w).2.Uninterrupted c := by
  induction p generalizing t w with
  | done a => exact h
  | op o next ih =>
    obtain ⟨requests, extended, -⟩ := w.start_extends c false o
    have first := TaskState.turns_cons (c := c) (.ready (.call o)) .own w []
    rw [World.poll_call, extended.requestsUpTo] at first
    simp only [run, uncancelled]
    rcases hs : w.start c false o with ⟨w', r | pending⟩ <;> rw [hs] at extended first
    · have ran : Call.Ran c ⟨o, ⟨w, edits⟩, ⟨w', edits⟩, r⟩ requests :=
        ⟨[], first.trans (Prod.ext rfl (List.append_nil _))⟩
      exact ih r _ w' uncancelled (Logged.answers (h.sends extended) ran)
    · exact ⟨[], requests, first.trans (Prod.ext rfl (List.append_nil _)), h.sends extended⟩

/-- One more turn of an operation that waits. -/
theorem turns_look {o : Op} {pending : o.Pending} {looks : List (Turn × World σ)}
    {asked : World σ} {requests more : List (String × String × Json)}
    (waits : (TaskState.ready (.call o)).turns c ((.own, asked) :: looks) =
      (.blocked o pending .done, requests)) {turn : Turn}
    (extended : w.Extends (w.turn c false o pending turn).1 more) :
    (TaskState.ready (.call o)).turns c ((.own, asked) :: (looks ++ [(turn, w)])) =
      (World.progressed (w.turn c false o pending turn).2, requests ++ more) := by
  rw [← List.cons_append, TaskState.turns_append, waits, TaskState.turns_cons,
    World.poll_blocked]
  dsimp only
  rw [extended.requestsUpTo]
  simp only [TaskState.turns, List.append_nil]

theorem Uninterrupted.turn (h : t.Uninterrupted c) (uncancelled : t.cancelled = false)
    (turn : Turn) (w : World σ) : (t.turn c edits turn w).2.Uninterrupted c := by
  cases hs : t.state with
  | ready p =>
    simp only [Thread.turn, hs]
    cases turn with
    | release server => exact h
    | own =>
      simp only [Uninterrupted, hs] at h
      exact uninterrupted_run p t w uncancelled h
  | blocked o pending next =>
    simp only [Uninterrupted, hs] at h
    -- This turn is one more of the operation that the request waits for, in the world as it is now;
    -- the turns before it were taken earlier.
    obtain ⟨looks, requests, waits, logged⟩ := h
    obtain ⟨more, extended, -⟩ := w.turn_extends c false o pending turn
    have look := turns_look waits extended
    simp only [Thread.turn, hs, uncancelled]
    rcases hr : w.turn c false o pending turn with ⟨w', r | pending'⟩ <;> rw [hr] at extended look
    · have ran : Call.Ran c ⟨o, t.since, ⟨w', edits⟩, r⟩ (requests ++ more) := ⟨_, look⟩
      exact uninterrupted_run (next r) _ w' uncancelled
        (Logged.answers (logged.sends extended) ran)
    · exact ⟨_, _, look, logged.sends extended⟩
  | finished a =>
    simp only [Thread.turn, hs]
    exact h

theorem cancelled_turn (t : Thread σ α) (turn : Turn) (w : World σ) :
    (t.turn c edits turn w).2.cancelled = t.cancelled := by
  have erased := congrArg Task.cancelled (t.turn_erase c edits turn w).2
  exact erased

/-- All that a request has asked and asks, it asks while servers are registered under their
names. -/
def AsksNamed (t : Thread σ α) : Prop :=
  t.since.world.core.registry.OneEach ∧ ∀ k ∈ t.calls, k.asked.world.core.registry.OneEach

theorem AsksNamed.answers {k : Call σ} (h : t.AsksNamed)
    (named : k.asked.world.core.registry.OneEach) : (t.answers k).AsksNamed := by
  refine ⟨h.1, fun k' hk' => ?_⟩
  rcases List.mem_append.1 hk' with hk' | hk'
  · exact h.2 k' hk'
  · rw [List.mem_singleton.1 hk']
    exact named

theorem asksNamed_run (p : Prog α) (t : Thread σ α) (w : World σ) (h : t.AsksNamed)
    (one : w.core.registry.OneEach) : (t.run c edits p w).2.AsksNamed := by
  induction p generalizing t w with
  | done a => exact h
  | op o next ih =>
    have kept := w.registry_start c t.cancelled o
    simp only [run]
    rcases hs : w.start c t.cancelled o with ⟨w', r | pending⟩ <;> rw [hs] at kept
    · have sends : (t.sends w w').AsksNamed := h
      exact ih r _ w' (sends.answers (k := ⟨o, ⟨w, edits⟩, ⟨w', edits⟩, r⟩) one) (kept ▸ one)
    · exact ⟨one, h.2⟩

theorem AsksNamed.turn (h : t.AsksNamed) (one : w.core.registry.OneEach) (turn : Turn) :
    (t.turn c edits turn w).2.AsksNamed := by
  unfold Thread.turn
  split
  · cases turn with
    | own => exact asksNamed_run _ t w h one
    | release server => exact h
  · next o pending next _ =>
    have kept := (w.apart_turn c t.cancelled o pending turn).registry
    have sends (w' : World σ) : (t.sends w w').AsksNamed := h
    rcases hr : w.turn c t.cancelled o pending turn with ⟨w', r | pending'⟩ <;> rw [hr] at kept
    · exact asksNamed_run (next r) _ w'
        ((sends w').answers (k := ⟨o, t.since, ⟨w', edits⟩, r⟩) h.1) (kept ▸ one)
    · exact h
  · exact h

end Thread

namespace Session

variable {s : Session σ α} {t : Thread σ α}

/-- What holds of every request that begins, and is kept when a request is cancelled and in every
turn, holds of all requests. -/
theorem Reachable.forall_threads {P : Thread σ α → Prop} (h : s.Reachable c)
    (begun : ∀ s : Session σ α, s.Reachable c → ∀ cancelled p,
      P ⟨⟨s.nextId, cancelled, .ready p⟩, p, [], [], s.moment⟩)
    (cancelled : ∀ t, P t → P { t with cancelled := true })
    (turned : ∀ s : Session σ α, s.Reachable c → ∀ t, P t → ∀ turn,
      P (t.turn c s.edits turn s.world).2) :
    ∀ t ∈ s.threads, P t := by
  induction h with
  | new outside => exact fun t ht => absurd ht List.not_mem_nil
  | @step s h e ih =>
    intro t ht
    cases e with
    | changed | elsewhere | listened | clock => exact ih t ht
    | spawned cancelled p =>
      rcases List.mem_append.1 ht with ht | ht
      · exact ih t ht
      · rw [List.mem_singleton.1 ht]
        exact begun s h cancelled p
    | cancelled id =>
      obtain ⟨t', ht', rfl⟩ := List.mem_map.1 ht
      split
      · exact cancelled t' (ih t' ht')
      · exact ih t' ht'
    | dropped id => exact ih t (List.mem_filter.1 ht).1
    | polled | released =>
      simp only [Session.step, Session.turn] at ht
      split at ht
      · exact ih t ht
      · next t' ht' =>
        rcases List.mem_or_eq_of_mem_set ht with ht | rfl
        · exact ih t ht
        · exact turned s h t' (ih t' (List.mem_of_getElem? ht')) _

/-- Whatever a request asks, servers are registered under their names. -/
theorem Reachable.asksNamed (h : s.Reachable c) (ht : t ∈ s.threads) : t.AsksNamed := by
  refine h.forall_threads ?_ ?_ ?_ t ht
  · intro s reachable _ _
    exact ⟨reachable.oneEach, fun k hk => absurd hk List.not_mem_nil⟩
  · intro t named
    exact named
  · intro s reachable t named
    exact named.turn reachable.oneEach

/-- A request that has not been cancelled has been followed through all its turns. -/
theorem Reachable.uninterrupted (h : s.Reachable c) (ht : t ∈ s.threads)
    (uncancelled : t.cancelled = false) : t.Uninterrupted c := by
  refine h.forall_threads (P := fun t => t.cancelled = false → t.Uninterrupted c) ?_ ?_ ?_ t ht
    uncancelled
  · intro s _ cancelled p _
    exact ⟨[], .nil, rfl⟩
  · intro t _ cancelled
    cases cancelled
  · intro s _ t followed turn uncancelled
    rw [Thread.cancelled_turn] at uncancelled
    exact (followed uncancelled).turn uncancelled turn s.world

/-- The record of a request that has ended without being cancelled. -/
theorem Reachable.logged (h : s.Reachable c) (ht : t ∈ s.threads)
    (uncancelled : t.cancelled = false) {a : α} (ended : t.state = .finished a) :
    t.Logged c [] := by
  have uninterrupted := h.uninterrupted ht uncancelled
  simp only [Thread.Uninterrupted, ended] at uninterrupted
  exact uninterrupted

end Session

end PolyglotLsp
