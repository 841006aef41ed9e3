import PolyglotLsp.Proofs.Session.Listening
import PolyglotLsp.Proofs.Session.Once

/-!
# Whose a listener is

Listeners have numbers that are given out one after the other, and each is recorded as one of the
request that has registered it (`Session.Owned`). So a listener has one request, and if requests
stop only listeners of their own, it is kept until its request stops it or is cancelled
(`Session.Reachable.keeps`).
-/

namespace PolyglotLsp

variable {σ α : Type} {c : Collaborators σ}

namespace World

variable {w w' w'' : World σ}

theorem listenersUpTo_append (first : w.core.progress.nextId ≤ w'.core.progress.nextId)
    (second : w'.core.progress.nextId ≤ w''.core.progress.nextId) (request : Nat) :
    w.listenersUpTo w' request ++ w'.listenersUpTo w'' request =
      w.listenersUpTo w'' request := by
  obtain ⟨m, hm⟩ := Nat.exists_eq_add_of_le first
  obtain ⟨n, hn⟩ := Nat.exists_eq_add_of_le second
  simp only [listenersUpTo, ← List.map_append, hn, hm, Nat.add_sub_cancel_left]
  rw [List.range'_append_1, Nat.add_assoc, Nat.add_sub_cancel_left]

theorem nextId_le_start (c : Collaborators σ) (w : World σ) (cancelled : Bool) (o : Op) :
    w.core.progress.nextId ≤ (w.start c cancelled o).1.core.progress.nextId := by
  obtain ⟨_, listens, -⟩ := w.listens_start c cancelled o
  exact listens.nextId_le

/-- A call that registers a listener has been given the next number. -/
theorem listener?_start {cancelled : Bool} {o : Op} {r : o.Result}
    (h : w.start c cancelled o = (w', .answered r)) (edits edits' : List Store.Event)
    (request : Nat) :
    (((⟨o, ⟨w, edits⟩, ⟨w', edits'⟩, r⟩ : Call σ).listener?.toList).map (·, request)).Sublist
      (w.listenersUpTo w' request) := by
  unfold Call.listener?
  split
  · next asked answered n token same =>
    cases same
    obtain ⟨rfl, next⟩ := number_of_listen h
    simp [listenersUpTo, next]
  · exact List.nil_sublist _

end World

namespace Thread

/-- The listeners that a request has registered. -/
def listeners (t : Thread σ α) : List Nat := t.calls.filterMap Call.listener?

theorem listeners_answers (t : Thread σ α) (k : Call σ) :
    (t.answers k).listeners = t.listeners ++ k.listener?.toList := by
  simp only [listeners, answers, List.filterMap_append]
  cases hk : k.listener? <;> simp [hk]

/-- What a request adds to its record between two worlds: calls, among them those that have
registered listeners. -/
structure Grows (c : Collaborators σ) (w w' : World σ) (t t' : Thread σ α) : Prop where
  id : t'.id = t.id
  cancelled : t'.cancelled = t.cancelled
  calls : t.calls <+: t'.calls
  next : w.core.progress.nextId ≤ w'.core.progress.nextId
  listeners : ∃ new, t'.listeners = t.listeners ++ new ∧
    (new.map (·, t.id)).Sublist (w.listenersUpTo w' t.id)

theorem grows_run (c : Collaborators σ) (edits : List Store.Event) (p : Prog α) (t : Thread σ α)
    (w : World σ) : t.Grows c w (t.run c edits p w).1 (t.run c edits p w).2 := by
  induction p generalizing t w with
  | done a =>
    exact ⟨rfl, rfl, List.prefix_rfl, Nat.le_refl _, [], by simp [run, listeners], by simp⟩
  | op o next ih =>
    have given := w.nextId_le_start c t.cancelled o
    simp only [run]
    rcases hs : w.start c t.cancelled o with ⟨w', r | pending⟩ <;> rw [hs] at given
    · obtain ⟨id, cancelled, calls, later, new, all, own⟩ := ih r
        ((t.sends w w').answers ⟨o, ⟨w, edits⟩, ⟨w', edits⟩, r⟩) w'
      refine ⟨id, cancelled, (List.prefix_append ..).trans calls, given.trans later, ?_⟩
      rw [listeners_answers, List.append_assoc] at all
      refine ⟨_, all, ?_⟩
      rw [List.map_append, ← World.listenersUpTo_append given later]
      exact (World.listener?_start hs edits edits t.id).append own
    · exact ⟨rfl, rfl, List.prefix_rfl, given, [], (List.append_nil _).symm, List.nil_sublist _⟩

theorem grows_turn (c : Collaborators σ) (edits : List Store.Event) (t : Thread σ α) (turn : Turn)
    (w : World σ) : t.Grows c w (t.turn c edits turn w).1 (t.turn c edits turn w).2 := by
  have rests : t.Grows c w w t :=
    ⟨rfl, rfl, List.prefix_rfl, Nat.le_refl _, [], (List.append_nil _).symm, List.nil_sublist _⟩
  cases hs : t.state with
  | ready p =>
    simp only [Thread.turn, hs]
    cases turn with
    | own => exact grows_run c edits p t w
    | release server => exact rests
  | blocked o pending next =>
    have given := (w.listens_turn c t.cancelled o pending turn).nextId_le
    simp only [Thread.turn, hs]
    rcases hr : w.turn c t.cancelled o pending turn with ⟨w', r | pending'⟩ <;> rw [hr] at given
    · obtain ⟨id, cancelled, calls, later, new, all, own⟩ := grows_run c edits (next r)
        ((t.sends w w').answers ⟨o, t.since, ⟨w', edits⟩, r⟩) w'
      -- An operation that waits registers no listener.
      have silent : (⟨o, t.since, ⟨w', edits⟩, r⟩ : Call σ).listener? = none := by
        cases o with
        | listen => exact pending.elim
        | _ => rfl
      refine ⟨id, cancelled, (List.prefix_append ..).trans calls, given.trans later, new, ?_, ?_⟩
      · rw [all, listeners_answers, silent, Option.toList_none, List.append_nil]
        rfl
      · rw [← World.listenersUpTo_append given later]
        exact own.trans (List.sublist_append_right ..)
    · exact ⟨rfl, rfl, List.prefix_rfl, given, [], (List.append_nil _).symm, List.nil_sublist _⟩
  | finished a =>
    simp only [Thread.turn, hs]
    exact rests

end Thread

namespace Session

variable {s : Session σ α} {n : Nat}

/-- Listeners have different numbers, which have been given out, and those that a request has
registered are recorded as its own. -/
structure Owned (s : Session σ α) : Prop where
  distinct : (s.listening.map (·.1)).Nodup
  given : ∀ l ∈ s.listening, l.1 < s.world.core.progress.nextId
  own : ∀ t ∈ s.threads, (t.listeners.map (·, t.id)).Sublist s.listening

theorem Owned.of_same {s' : Session σ α} (h : s.Owned) (listening : s'.listening = s.listening)
    (next : s.world.core.progress.nextId ≤ s'.world.core.progress.nextId)
    (own : ∀ t ∈ s'.threads, t.listeners = [] ∨
      ∃ t' ∈ s.threads, t.listeners = t'.listeners ∧ t.id = t'.id) : s'.Owned := by
  refine ⟨listening ▸ h.distinct, fun l hl => ?_, fun t ht => ?_⟩
  · rw [listening] at hl
    exact Nat.lt_of_lt_of_le (h.given l hl) next
  · rcases own t ht with none | ⟨t', ht', listeners, id⟩
    · rw [none]
      exact List.nil_sublist _
    · rw [listening, listeners, id]
      exact h.own t' ht'

theorem Owned.turn (h : s.Owned) (place : Nat) (turn : Turn) : (s.turn c place turn).Owned := by
  unfold Session.turn
  split
  · exact h
  · next t₀ ht₀ =>
    obtain ⟨id, -, -, next, new, all, own⟩ := t₀.grows_turn c s.edits turn s.world
    have fresh : ∀ l ∈ s.world.listenersUpTo (t₀.turn c s.edits turn s.world).1 t₀.id,
        s.world.core.progress.nextId ≤ l.1 ∧
          l.1 < (t₀.turn c s.edits turn s.world).1.core.progress.nextId := by
      intro l hl
      obtain ⟨number, inside, rfl⟩ := List.mem_map.1 hl
      rw [List.mem_range'_1, Nat.add_sub_cancel' next] at inside
      exact inside
    refine ⟨?_, fun l hl => ?_, fun t ht => ?_⟩
    · dsimp only
      rw [id, List.map_append]
      refine List.nodup_append.2 ⟨h.distinct, ?_, fun a ha b hb => ?_⟩
      · rw [World.listenersUpTo, List.map_map]
        exact (List.map_id _).symm ▸ List.nodup_range' _
      · obtain ⟨l, hl, rfl⟩ := List.mem_map.1 ha
        obtain ⟨l', hl', rfl⟩ := List.mem_map.1 hb
        exact Nat.ne_of_lt (Nat.lt_of_lt_of_le (h.given l hl) (fresh l' hl').1)
    · dsimp only at hl
      rw [id] at hl
      rcases List.mem_append.1 hl with hl | hl
      · exact Nat.lt_of_lt_of_le (h.given l hl) next
      · exact (fresh l hl).2
    · dsimp only
      rw [id]
      rcases List.mem_or_eq_of_mem_set ht with ht | rfl
      · exact (h.own t ht).trans (List.sublist_append_left ..)
      · rw [all, id, List.map_append]
        exact (h.own t₀ (List.mem_of_getElem? ht₀)).append own

theorem listeners_le_step (s : Session σ α) (e : Event σ α) :
    s.world.core.progress.nextId ≤ (s.step c e).world.core.progress.nextId := by
  have onward (h : e.Onward s) :
      s.world.core.progress.nextId ≤ (s.step c e).world.core.progress.nextId := by
    obtain ⟨_, run, -⟩ := runs_step (c := c) h
    exact run.nextId_le
  cases e with
  | clock now => exact Nat.le_refl _
  | changed | elsewhere | spawned | cancelled | dropped | listened | polled | released =>
    exact onward trivial

theorem Reachable.owned (h : s.Reachable c) : s.Owned := by
  induction h with
  | new outside =>
    exact ⟨List.nodup_nil, fun _ hl => absurd hl List.not_mem_nil,
      fun _ ht => absurd ht List.not_mem_nil⟩
  | @step s h e ih =>
    have next := s.listeners_le_step (c := c) e
    cases e with
    | changed | elsewhere | listened | clock =>
      exact ih.of_same rfl next fun t ht => .inr ⟨t, ht, rfl, rfl⟩
    | spawned cancelled p =>
      refine ih.of_same rfl next fun t ht => ?_
      rcases List.mem_append.1 ht with ht | ht
      · exact .inr ⟨t, ht, rfl, rfl⟩
      · rw [List.mem_singleton.1 ht]
        exact .inl rfl
    | cancelled id =>
      refine ih.of_same rfl next fun t ht => .inr ?_
      obtain ⟨t', ht', rfl⟩ := List.mem_map.1 ht
      refine ⟨t', ht', ?_⟩
      split
      · exact ⟨rfl, rfl⟩
      · exact ⟨rfl, rfl⟩
    | dropped id =>
      exact ih.of_same rfl next fun t ht => .inr ⟨t, (List.mem_filter.1 ht).1, rfl, rfl⟩
    | polled place => exact ih.turn place .own
    | released place server => exact ih.turn place (.release server)

/-- A listener has one request. -/
theorem Owned.eq_of_mem (h : s.Owned) {a b : Nat} (ha : (n, a) ∈ s.listening)
    (hb : (n, b) ∈ s.listening) : a = b :=
  congrArg Prod.snd (List.inj_on_of_nodup_map h.distinct ha hb rfl)

theorem Owned.mem_listening (h : s.Owned) {t : Thread σ α} (ht : t ∈ s.threads) {k : Call σ}
    (hk : k ∈ t.calls) (registered : k.listener? = some n) : (n, t.id) ∈ s.listening :=
  (h.own t ht).mem (List.mem_map.2 ⟨n, List.mem_filterMap.2 ⟨k, hk, registered⟩, rfl⟩)

theorem Owned.nodup_listeners (h : s.Owned) {t : Thread σ α} (ht : t ∈ s.threads) :
    t.listeners.Nodup := by
  have recorded := (h.own t ht).map (·.1)
  rw [List.map_map] at recorded
  exact (List.map_id _ ▸ recorded).nodup h.distinct

/-! ## Where requests come from -/

/-- A request has been under way before, and has gone on since. -/
structure GoesOn (t t' : Thread σ α) : Prop where
  id : t'.id = t.id
  calls : t.calls <+: t'.calls
  cancelled : t.cancelled = true → t'.cancelled = true

theorem GoesOn.rfl {t : Thread σ α} : GoesOn t t := ⟨Eq.refl _, List.prefix_rfl, fun h => h⟩

theorem GoesOn.trans {t t' t'' : Thread σ α} (h : GoesOn t t') (h' : GoesOn t' t'') :
    GoesOn t t'' :=
  ⟨h'.id.trans h.id, h.calls.trans h'.calls, fun cancelled => h'.cancelled (h.cancelled cancelled)⟩

theorem goesOn_of_mem_step {e : Event σ α} {t : Thread σ α} (ht : t ∈ (s.step c e).threads) :
    (∃ t₀ ∈ s.threads, GoesOn t₀ t) ∨ t.id = s.nextId := by
  cases e with
  | changed | elsewhere | listened | clock => exact .inl ⟨t, ht, .rfl⟩
  | spawned cancelled p =>
    rcases List.mem_append.1 ht with ht | ht
    · exact .inl ⟨t, ht, .rfl⟩
    · rw [List.mem_singleton.1 ht]
      exact .inr rfl
  | cancelled id =>
    obtain ⟨t', ht', rfl⟩ := List.mem_map.1 ht
    refine .inl ⟨t', ht', ?_⟩
    split
    · exact ⟨rfl, List.prefix_rfl, fun _ => rfl⟩
    · exact .rfl
  | dropped id => exact .inl ⟨t, (List.mem_filter.1 ht).1, .rfl⟩
  | polled | released =>
    simp only [step, Session.turn] at ht
    split at ht
    · exact .inl ⟨t, ht, .rfl⟩
    · next t₀ ht₀ =>
      rcases List.mem_or_eq_of_mem_set ht with ht | rfl
      · exact .inl ⟨t, ht, .rfl⟩
      · obtain ⟨id, cancelled, calls, -⟩ := t₀.grows_turn c s.edits _ s.world
        exact .inl ⟨t₀, List.mem_of_getElem? ht₀, id, calls, fun h => cancelled.trans h⟩

theorem nextId_le_step (s : Session σ α) (e : Event σ α) :
    s.nextId ≤ (s.step c e).nextId := by
  cases e with
  | spawned => exact Nat.le_succ _
  | polled | released =>
    simp only [step, Session.turn]
    split <;> exact Nat.le_refl _
  | _ => exact Nat.le_refl _

/-- A request with a number that has been given out is one that was under way by then. -/
theorem goesOn_of_mem_play {events : List (Event σ α)} {t : Thread σ α}
    (ht : t ∈ (s.play c events).threads) (known : t.id < s.nextId) :
    ∃ t₀ ∈ s.threads, GoesOn t₀ t := by
  induction events generalizing s with
  | nil => exact ⟨t, ht, .rfl⟩
  | cons e events ih =>
    obtain ⟨t₁, ht₁, later⟩ := ih ht (Nat.lt_of_lt_of_le known (s.nextId_le_step e))
    rcases goesOn_of_mem_step ht₁ with ⟨t₀, ht₀, first⟩ | new
    · exact ⟨t₀, ht₀, first.trans later⟩
    · rw [later.id, new] at known
      exact absurd known (Nat.lt_irrefl _)

theorem nextId_le_play (s : Session σ α) (events : List (Event σ α)) :
    s.nextId ≤ (s.play c events).nextId := by
  induction events generalizing s with
  | nil => exact Nat.le_refl _
  | cons e events ih => exact (s.nextId_le_step e).trans (ih _)

theorem listening_prefix (s : Session σ α) (events : List (Event σ α)) :
    s.listening <+: (s.play c events).listening := by
  induction events generalizing s with
  | nil => exact List.prefix_rfl
  | cons e events ih =>
    refine .trans ?_ (ih (s.step c e))
    cases e with
    | polled | released =>
      simp only [step, Session.turn]
      split
      · exact List.prefix_rfl
      · exact List.prefix_append ..
    | _ => exact List.prefix_rfl

end Session

/-! ## Listeners that are kept -/

/-- A program that stops only listeners that it has registered. -/
def Prog.StopsOnlyOwn (c : Collaborators σ) (p : Prog α) : Prop :=
  ∀ m : Moment σ, p.wp c StopsOwn (fun _ _ _ => True) [] m

namespace Session

variable {s : Session σ α} {n : Nat}

theorem Reachable.exists_listener?_of_stops (h : s.Reachable c) {t : Thread σ α}
    (ht : t ∈ s.threads) (own : t.program.StopsOnlyOwn c) {earlier later : List (Call σ)}
    {k : Call σ} (split : t.calls = earlier ++ k :: later) (stops : n ∈ k.op.stops) :
    ∃ k' ∈ earlier, k'.listener? = some n := by
  obtain ⟨_, recorded⟩ := (h.meets ht fun m _ => own m).recorded
  exact recorded.allowed split n stops

/-- A request that has registered a listener with its latest call has not stopped it. -/
theorem Reachable.not_stopped_of_getLast? (h : s.Reachable c) {t : Thread σ α}
    (ht : t ∈ s.threads) (own : t.program.StopsOnlyOwn c) {k : Call σ}
    (last : t.calls.getLast? = some k) (registered : k.listener? = some n) : ¬ t.Stopped n := by
  rintro ⟨k', hk', stops⟩
  obtain ⟨calls, all⟩ := List.getLast?_eq_some_iff.1 last
  obtain ⟨earlier, later, split⟩ := List.append_of_mem hk'
  obtain ⟨k₁, hk₁, before⟩ := h.exists_listener?_of_stops ht own split stops
  -- Otherwise the number would have been given out twice.
  have twice := h.owned.nodup_listeners ht
  rcases List.eq_nil_or_concat later with rfl | ⟨later, k₂, rfl⟩
  · rw [all] at split
    obtain ⟨-, same⟩ := List.append_inj' split rfl
    cases same
    unfold Call.listener? at registered
    split at registered
    · cases stops
    · cases registered
  · rw [List.concat_eq_append, ← List.cons_append, ← List.append_assoc, all] at split
    obtain ⟨rfl, same⟩ := List.append_inj' split rfl
    cases same
    rw [Thread.listeners, all, List.filterMap_append, List.filterMap_append] at twice
    have disjoint := (List.nodup_append.1 twice).2.2
    refine disjoint n ?_ n ?_ rfl
    · exact List.mem_append_left _ (List.mem_filterMap.2 ⟨k₁, hk₁, before⟩)
    · exact List.mem_filterMap.2 ⟨_, List.mem_singleton_self _, registered⟩

variable {t₀ t : Thread σ α} {k : Call σ} {events : List (Event σ α)}

/-- The request with a listener is the one that has registered it. -/
theorem Reachable.goesOn_of_listener? (h : s.Reachable c) (ht₀ : t₀ ∈ s.threads)
    (hk₀ : k ∈ t₀.calls) (registered : k.listener? = some n)
    (ht : t ∈ (s.play c events).threads) (hk : k ∈ t.calls) : GoesOn t₀ t := by
  have reachable := h.play events
  have number : t.id = t₀.id := reachable.owned.eq_of_mem
    (reachable.owned.mem_listening ht hk registered)
    ((s.listening_prefix events).subset (h.owned.mem_listening ht₀ hk₀ registered))
  obtain ⟨t', ht', goesOn⟩ := goesOn_of_mem_play ht (number ▸ h.numbered.used t₀ ht₀)
  obtain rfl : t' = t₀ := h.numbered.eq_of_id ht₀ ht' (goesOn.id.symm.trans number)
  exact goesOn

/-- If requests stop only listeners of their own, a listener is kept until its request stops it or
is cancelled. -/
theorem Reachable.keeps (h : s.Reachable c) (ht₀ : t₀ ∈ s.threads) (hk₀ : k ∈ t₀.calls)
    (registered : k.listener? = some n)
    (own : ∀ earlier, earlier <+: events →
      ∀ t ∈ (s.play c earlier).threads, t.program.StopsOnlyOwn c)
    (ht : t ∈ (s.play c events).threads) (hk : k ∈ t.calls) (unstopped : ¬ t.Stopped n)
    (uncancelled : t.cancelled = false) : s.Keeps c events n := by
  have number : t.id = t₀.id := (h.goesOn_of_listener? ht₀ hk₀ registered ht hk).id
  have recorded (earlier : List (Event σ α)) : (n, t₀.id) ∈ (s.play c earlier).listening :=
    (s.listening_prefix earlier).subset (h.owned.mem_listening ht₀ hk₀ registered)
  have known (earlier : List (Event σ α)) : t.id < (s.play c earlier).nextId :=
    Nat.lt_of_lt_of_le (number ▸ h.numbered.used t₀ ht₀) (s.nextId_le_play earlier)
  constructor
  · rintro earlier before ⟨t', ht', k', hk', stops⟩
    have reachable := h.play earlier
    obtain ⟨calls, later, split⟩ := List.append_of_mem hk'
    obtain ⟨k₁, hk₁, given⟩ := reachable.exists_listener?_of_stops ht' (own earlier before t' ht')
      split stops
    have same : t'.id = t₀.id := reachable.owned.eq_of_mem
      (reachable.owned.mem_listening ht' (split ▸ List.mem_append_left _ hk₁) given)
      (recorded earlier)
    -- It is the request that has registered the listener, and whatever it did then is on record.
    obtain ⟨rest, rfl⟩ := before
    rw [play_append] at ht
    obtain ⟨t'', ht'', goesOn⟩ := goesOn_of_mem_play ht (known earlier)
    obtain rfl : t'' = t' := reachable.numbered.eq_of_id ht' ht''
      (goesOn.id.symm.trans (number.trans same.symm))
    exact unstopped ⟨k', goesOn.calls.subset hk', stops⟩
  · rintro earlier owner ⟨rest, rfl⟩ listening
    obtain rfl : owner = t₀.id := (h.play earlier).owned.eq_of_mem listening (recorded earlier)
    rw [play_append] at ht
    obtain ⟨t'', ht'', goesOn⟩ := goesOn_of_mem_play ht (known _)
    rw [play_append] at ht''
    obtain ⟨t', -, rfl⟩ := List.mem_map.1 ht''
    have mine : t'.id = t₀.id := by
      have same := goesOn.id.symm.trans number
      split at same
      · exact same
      · exact same
    have cancelled := goesOn.cancelled (by rw [if_pos mine])
    rw [uncancelled] at cancelled
    cases cancelled

end Session

end PolyglotLsp
