import PolyglotLsp.Proofs.Completion.ContextCache
import PolyglotLsp.Proofs.Session.Frame

/-!
# Origins in a session

A request that has remembered a list has the list's number on record (`Call.remembered?`). Others
remember lists too, and the cache may get another capacity, but whoever asks for the number gets the
origin of the list as long as there has been room for it all the time (`Session.Unevicted`,
`Session.mem_entries_play`): at no moment as many lists had been remembered since as the cache held.
-/

namespace PolyglotLsp

variable {σ α : Type} {c : Collaborators σ} {id : Nat} {calls : List (Call σ)}

/-- The number and the origin of a list that a call has remembered. -/
def Call.remembered? : Call σ → Option (Nat × CompletionContext)
  | ⟨.remember context, _, _, id⟩ => some (id, context)
  | _ => none

namespace ContextCache

variable {cache : ContextCache}

/-- Fewer lists have been remembered since the one with this number than the cache holds. -/
def Room (cache : ContextCache) (id : Nat) : Prop := cache.nextId ≤ id + cache.capacity

/-- If there is room for the list with a number, the cache knows the origin that calls have
remembered under it. -/
structure Tracks (id : Nat) (cache : ContextCache) (calls : List (Call σ)) : Prop where
  ordered : cache.Ordered
  kept : ∀ k ∈ calls, ∀ context, k.remembered? = some (id, context) → cache.Room id →
    (id, context) ∈ cache.entries

theorem tracks_nil (h : cache.Ordered) : Tracks (σ := σ) id cache [] :=
  ⟨h, fun _ hk => absurd hk List.not_mem_nil⟩

theorem Tracks.insert (h : Tracks id cache calls) (context : CompletionContext) :
    Tracks id (cache.insert context).1 calls := by
  refine ⟨h.ordered.insert context, fun k hk origin ho room => ?_⟩
  have before : cache.Room id := Nat.le_of_succ_le room
  exact mem_insert h.ordered (h.kept k hk origin ho before) context room

theorem Tracks.caches (h : Tracks id cache calls) (o : Op) : Tracks id (o.caches cache) calls := by
  cases o with
  | remember context => exact h.insert context
  | _ => exact h

theorem Tracks.answers (h : Tracks id cache calls) {k : Call σ}
    (hk : ∀ context, k.remembered? = some (id, context) → (id, context) ∈ cache.entries) :
    Tracks id cache (calls ++ [k]) := by
  refine ⟨h.ordered, fun k' hk' context hc room => ?_⟩
  rcases List.mem_append.1 hk' with hk' | hk'
  · exact h.kept k' hk' context hc room
  · rw [List.mem_singleton.1 hk'] at hc
    exact hk context hc

theorem Tracks.setCapacity (h : Tracks id cache calls) (room : cache.Room id) (capacity : Nat) :
    Tracks id (cache.setCapacity capacity) calls :=
  ⟨h.ordered.setCapacity capacity, fun k hk context hc later =>
    mem_setCapacity h.ordered (h.kept k hk context hc room) later⟩

end ContextCache

/-! ## Turns of requests -/

open ContextCache

namespace World

variable {w w' : World σ} {cancelled : Bool} {o : Op}

theorem tracks_start_answered {r : o.Result} (h : Tracks id w.core.cache calls)
    (hs : w.start c cancelled o = (w', .answered r)) (asked answered : Moment σ) :
    Tracks id w'.core.cache (calls ++ [⟨o, asked, answered, r⟩]) := by
  have cache := w.cache_start c cancelled o
  rw [hs] at cache
  have before : Tracks id w'.core.cache calls := cache ▸ h.caches o
  refine before.answers fun context hc => ?_
  cases o with
  | remember origin =>
    cases hs
    cases hc
    exact mem_insert_self ..
  | _ => cases hc

theorem tracks_turn_answered {pending : o.Pending} {turn : Turn} {r : o.Result}
    (h : Tracks id w.core.cache calls) (hr : w.turn c cancelled o pending turn = (w', .answered r))
    (asked answered : Moment σ) :
    Tracks id w'.core.cache (calls ++ [⟨o, asked, answered, r⟩]) := by
  have cache := (w.apart_turn c cancelled o pending turn).cache
  rw [hr] at cache
  refine (cache ▸ h : Tracks id w'.core.cache calls).answers fun context hc => ?_
  cases o with
  | remember origin => exact pending.elim
  | _ => cases hc

theorem tracks_run (h : Tracks id w.core.cache calls) (p : Prog α) :
    Tracks id (w.run c cancelled p).1.core.cache calls := by
  induction p generalizing w with
  | done a => exact h
  | op o next ih =>
    have cache := w.cache_start c cancelled o
    simp only [run]
    rcases hs : w.start c cancelled o with ⟨w', r | pending⟩ <;> rw [hs] at cache
    · exact ih r (cache ▸ h.caches o)
    · exact cache ▸ h.caches o

theorem tracks_poll (h : Tracks id w.core.cache calls) (turn : Turn) (state : TaskState α) :
    Tracks id (w.poll c cancelled turn state).1.core.cache calls := by
  cases state with
  | ready p =>
    cases turn with
    | own => exact tracks_run h p
    | release server => exact h
  | blocked o pending next =>
    have cache := (w.apart_turn c cancelled o pending turn).cache
    simp only [poll]
    rcases hr : w.turn c cancelled o pending turn with ⟨w', r | pending'⟩ <;> rw [hr] at cache
    · exact tracks_run (cache ▸ h) (next r)
    · exact cache ▸ h
  | finished a => exact h

end World

namespace Thread

variable {t : Thread σ α} {w : World σ} {edits : List Store.Event}

theorem tracks_run (p : Prog α) (h : Tracks id w.core.cache t.calls) :
    Tracks id (t.run c edits p w).1.core.cache (t.run c edits p w).2.calls := by
  induction p generalizing t w with
  | done a => exact h
  | op o next ih =>
    simp only [run]
    rcases hs : w.start c t.cancelled o with ⟨w', r | pending⟩
    · exact ih r (t := (t.sends w w').answers ⟨o, ⟨w, edits⟩, ⟨w', edits⟩, r⟩)
        (World.tracks_start_answered h hs _ _)
    · have cache := w.cache_start c t.cancelled o
      rw [hs] at cache
      exact cache ▸ h.caches o

theorem tracks_turn (h : Tracks id w.core.cache t.calls) (turn : Turn) :
    Tracks id (t.turn c edits turn w).1.core.cache (t.turn c edits turn w).2.calls := by
  unfold Thread.turn
  split
  · next p _ =>
    cases turn with
    | own => exact tracks_run p h
    | release server => exact h
  · next o pending next _ =>
    rcases hr : w.turn c t.cancelled o pending turn with ⟨w', r | pending'⟩
    · exact tracks_run (t := (t.sends w w').answers ⟨o, t.since, ⟨w', edits⟩, r⟩) (next r)
        (World.tracks_turn_answered h hr _ _)
    · have cache := (w.apart_turn c t.cancelled o pending turn).cache
      rw [hr] at cache
      exact cache ▸ h
  · exact h

end Thread

/-! ## Steps of a session -/

theorem Core.tracks_change {core : Core} (h : Tracks id core.cache calls)
    (room : core.cache.Room id) (k : Change) : Tracks id (core.change k).1.cache calls := by
  cases k with
  | started s i => exact h.setCapacity room _
  | configured s settings => exact h.setCapacity room _
  | told | shutDown | registered | unregistered | syncTimeout | syncRejects | requestTimeout =>
    exact h
  | _ =>
    rw [core.change_of_documents rfl]
    exact h

namespace Session

variable {s : Session σ α}

def cache (s : Session σ α) : ContextCache := s.world.core.cache

/-- Calls that have been made stay tracked if there is room for the list before the step. -/
theorem tracks_step (h : Tracks id s.cache calls) (room : s.cache.Room id) (e : Event σ α) :
    Tracks id (s.step c e).cache calls := by
  cases e with
  | changed k =>
    have changed := Core.tracks_change h room k
    rw [Session.cache, step, world_changed]
    exact changed
  | elsewhere | spawned | cancelled | dropped | listened | clock => exact h
  | polled | released =>
    unfold Session.cache
    simp only [step, Session.turn]
    split
    · exact h
    · next t _ =>
      rw [(t.turn_erase c s.edits _ s.world).1]
      exact World.tracks_poll h _ t.state

/-- The calls of all requests of a session are tracked. -/
def Tracked (id : Nat) (s : Session σ α) : Prop :=
  s.cache.Ordered ∧ ∀ t ∈ s.threads, Tracks id s.cache t.calls

theorem Tracked.step (h : s.Tracked id) (room : s.cache.Room id) (e : Event σ α) :
    (s.step c e).Tracked id := by
  have old (t : Thread σ α) (ht : t ∈ s.threads) : Tracks id (s.step c e).cache t.calls :=
    tracks_step (h.2 t ht) room e
  have ordered : Tracks id (s.step c e).cache [] := tracks_step (tracks_nil h.1) room e
  refine ⟨ordered.ordered, fun t ht => ?_⟩
  cases e with
  | changed | elsewhere | listened | clock => exact old t ht
  | spawned cancelled p =>
    rcases List.mem_append.1 ht with ht | ht
    · exact old t ht
    · rw [List.mem_singleton.1 ht]
      exact tracks_nil h.1
  | cancelled number =>
    obtain ⟨t', ht', rfl⟩ := List.mem_map.1 ht
    have same : (if t'.id = number then { t' with cancelled := true } else t').calls =
        t'.calls := by
      split
      · rfl
      · rfl
    rw [same]
    exact old t' ht'
  | dropped number => exact old t (List.mem_filter.1 ht).1
  | polled place | released place =>
    cases hp : s.threads[place]? with
    | none =>
      simp only [Session.step, Session.turn, hp] at ht ⊢
      exact h.2 t ht
    | some t' =>
      simp only [Session.step, Session.turn, hp] at ht
      rcases List.mem_or_eq_of_mem_set ht with ht | rfl
      · exact old t ht
      · simp only [Session.step, Session.turn, Session.cache, hp]
        exact Thread.tracks_turn (h.2 t' (List.mem_of_getElem? hp)) _

/-- At every session on the way there is room for the list with this number. -/
def Unevicted (c : Collaborators σ) (id : Nat) (s : Session σ α) (events : List (Event σ α)) :
    Prop :=
  ∀ es, es <+: events → (s.play c es).cache.Room id

theorem Unevicted.here {events : List (Event σ α)} (h : s.Unevicted c id events) :
    s.cache.Room id := h [] List.nil_prefix

theorem Unevicted.tail {e : Event σ α} {events : List (Event σ α)}
    (h : s.Unevicted c id (e :: events)) : (s.step c e).Unevicted c id events :=
  fun es hes => h (e :: es) (List.prefix_cons_inj e |>.2 hes)

theorem Unevicted.left {events more : List (Event σ α)} (h : s.Unevicted c id (events ++ more)) :
    s.Unevicted c id events := fun es hes => h es (hes.trans (List.prefix_append ..))

theorem Unevicted.right {events more : List (Event σ α)} (h : s.Unevicted c id (events ++ more)) :
    (s.play c events).Unevicted c id more := by
  intro es hes
  rw [← play_append]
  exact h (events ++ es) (List.prefix_append_right_inj events |>.2 hes)

theorem Tracked.play {events : List (Event σ α)} (h : s.Tracked id)
    (unevicted : s.Unevicted c id events) : (s.play c events).Tracked id := by
  induction events generalizing s with
  | nil => exact h
  | cons e events ih => exact ih (h.step unevicted.here e) unevicted.tail

theorem tracks_play {events : List (Event σ α)} (h : Tracks id s.cache calls)
    (unevicted : s.Unevicted c id events) : Tracks id (s.play c events).cache calls := by
  induction events generalizing s with
  | nil => exact h
  | cons e events ih => exact ih (tracks_step h unevicted.here e) unevicted.tail

theorem tracked_new (outside : σ) : (new outside : Session σ α).Tracked id :=
  ⟨(ordered_new _).setCapacity _, fun _ ht => absurd ht List.not_mem_nil⟩

/-- The origin of a list that a request has remembered is known as long as there has been room for
the list. -/
theorem mem_entries_play (outside : σ) {before after : List (Event σ α)} {t : Thread σ α}
    (ht : t ∈ ((new outside).play c before).threads) {k : Call σ} (hk : k ∈ t.calls)
    {context : CompletionContext} (remembered : k.remembered? = some (id, context))
    (unevicted : (new outside).Unevicted c id (before ++ after)) :
    ((new outside).play c (before ++ after)).cache.Ordered ∧
      (id, context) ∈ ((new outside).play c (before ++ after)).cache.entries := by
  have early : Tracks id ((new outside).play c before).cache t.calls :=
    ((tracked_new outside).play unevicted.left).2 t ht
  have late := tracks_play early unevicted.right
  rw [← play_append] at late
  exact ⟨late.ordered, late.kept k hk context remembered (unevicted _ List.prefix_rfl)⟩

end Session

end PolyglotLsp
