import PolyglotLsp.Proofs.Session.Logic

/-!
# The rest of a request

A request that waits for an operation has a rest: what its program does with the answer. The calls
that have been made lead the program to this rest (`Prog.Reaches`, `Session.Reachable.follows`), so
that a fact about every place of a program at which an operation is asked (`Prog.everywhere`) holds
of every request that waits (`Session.Reachable.rest_of_blocked`). Once an operation has answered, a
program goes on up to its end or to the next operation that waits; a part of it that ends without
waiting is followed by the rest (`World.run_bind`). So much is known of the next turn of a request
whose operation answers (`Session.exists_polled_of_answered`).
-/

namespace PolyglotLsp

variable {σ α β : Type} {c : Collaborators σ}

/-! ## Where calls lead -/

/-- From a moment on, calls lead a program to another one at a later moment. -/
inductive Prog.Reaches (p : Prog α) (m : Moment σ) :
    List (Call σ) → Prog α → Moment σ → Prop
  | start : Reaches p m [] p m
  | call {calls : List (Call σ)} {o : Op} {next : o.Result → Prog α} {asked : Moment σ}
      (h : Reaches p m calls (.op o next) asked) (answered : Moment σ) (r : o.Result) :
      Reaches p m (calls ++ [⟨o, asked, answered, r⟩]) (next r) answered

namespace Thread

variable {t : Thread σ α}

/-- The calls of a request have led its program to where the request stands. -/
def Follows (t : Thread σ α) : Prop :=
  match t.state with
  | .ready p => p = t.program ∧ t.calls = []
  | .blocked o _ next => ∃ m, t.program.Reaches m t.calls (.op o next) t.since
  | .finished a => ∃ m m', t.program.Reaches m t.calls (.done a) m'

theorem follows_run {edits : List Store.Event} (p : Prog α) (t : Thread σ α) (w : World σ)
    (h : ∃ m, t.program.Reaches m t.calls p ⟨w, edits⟩) : (t.run c edits p w).2.Follows := by
  induction p generalizing t w with
  | done a =>
    obtain ⟨m, reaches⟩ := h
    exact ⟨m, _, reaches⟩
  | op o next ih =>
    obtain ⟨m, reaches⟩ := h
    simp only [run]
    rcases w.start c t.cancelled o with ⟨w', r | pending⟩
    · exact ih r ((t.sends w w').answers ⟨o, ⟨w, edits⟩, ⟨w', edits⟩, r⟩) w'
        ⟨m, reaches.call _ r⟩
    · exact ⟨m, reaches⟩

theorem Follows.turn (h : t.Follows) (edits : List Store.Event) (turn : Turn) (w : World σ) :
    (t.turn c edits turn w).2.Follows := by
  cases hs : t.state with
  | ready p =>
    simp only [Thread.turn, hs]
    cases turn with
    | own =>
      simp only [Follows, hs] at h
      obtain ⟨rfl, none⟩ := h
      refine follows_run t.program t w ⟨⟨w, edits⟩, ?_⟩
      rw [none]
      exact .start
    | release server => exact h
  | blocked o pending next =>
    simp only [Follows, hs] at h
    obtain ⟨m, reaches⟩ := h
    simp only [Thread.turn, hs]
    rcases w.turn c t.cancelled o pending turn with ⟨w', r | pending'⟩
    · exact follows_run (next r) ((t.sends w w').answers ⟨o, t.since, ⟨w', edits⟩, r⟩) w'
        ⟨m, reaches.call _ r⟩
    · exact ⟨m, reaches⟩
  | finished a =>
    simp only [Thread.turn, hs]
    exact h

end Thread

namespace Session

variable {s : Session σ α} {t : Thread σ α}

theorem Reachable.follows (h : s.Reachable c) (ht : t ∈ s.threads) : t.Follows := by
  induction h generalizing t with
  | new outside => cases ht
  | @step s h e ih =>
    cases e with
    | changed | elsewhere | listened | clock => exact ih ht
    | spawned cancelled p =>
      rcases List.mem_append.1 ht with ht | ht
      · exact ih ht
      · rw [List.mem_singleton.1 ht]
        exact ⟨rfl, rfl⟩
    | cancelled id =>
      obtain ⟨t', ht', rfl⟩ := List.mem_map.1 ht
      have before : t'.Follows := ih ht'
      split
      · exact before
      · exact before
    | dropped id => exact ih (List.mem_filter.1 ht).1
    | polled | released =>
      simp only [Session.step, Session.turn] at ht
      split at ht
      · exact ih ht
      · next t' ht' =>
        rcases List.mem_or_eq_of_mem_set ht with ht | rfl
        · exact ih ht
        · exact (ih (List.mem_of_getElem? ht')).turn ..

end Session

/-! ## Facts about every place of a program -/

namespace Prog

/-- Whatever genuine answers come, `J` holds whenever an operation is asked: of the calls made by
then, the operation, and the rest of the program. -/
def everywhere (c : Collaborators σ)
    (J : List (Call σ) → (o : Op) → (o.Result → Prog α) → Prop) :
    Prog α → List (Call σ) → Moment σ → Prop
  | .done _, _, _ => True
  | .op o next, calls, m =>
    J calls o next ∧ ∀ answered r, Call.Genuine c ⟨o, m, answered, r⟩ →
      (next r).everywhere c J (calls ++ [⟨o, m, answered, r⟩]) answered

variable {J : List (Call σ) → (o : Op) → (o.Result → Prog β) → Prop} {calls : List (Call σ)}
  {m : Moment σ}

theorem everywhere_bind {I : List (Call σ) → Op → Prop} {p : Prog α} {f : α → Prog β}
    {Q : Post σ α}
    (hp : p.everywhere c (fun calls o next => J calls o fun r => (next r).bind f) calls m)
    (hq : p.wp c I Q calls m)
    (hf : ∀ a calls m, Q a calls m → (f a).everywhere c J calls m) :
    (p.bind f).everywhere c J calls m := by
  induction p generalizing calls m with
  | done a => exact hf a calls m hq
  | op o next ih =>
    refine ⟨hp.1, fun answered r genuine => ?_⟩
    exact ih r (hp.2 answered r genuine) (hq.2 answered r genuine)

theorem everywhere_mono {J' : List (Call σ) → (o : Op) → (o.Result → Prog β) → Prop} {p : Prog β}
    (h : p.everywhere c J calls m) (hJ : ∀ calls o next, J calls o next → J' calls o next) :
    p.everywhere c J' calls m := by
  induction p generalizing calls m with
  | done a => trivial
  | op o next ih =>
    exact ⟨hJ _ _ _ h.1, fun answered r genuine => ih r (h.2 answered r genuine)⟩

/-- A rule about the operations of a program says something of every place. -/
theorem everywhere_of_wp {I : List (Call σ) → Op → Prop} {Q : Post σ β} {p : Prog β}
    (h : p.wp c I Q calls m) (hJ : ∀ calls o next, I calls o → J calls o next) :
    p.everywhere c J calls m := by
  induction p generalizing calls m with
  | done a => trivial
  | op o next ih =>
    obtain ⟨allowed, later⟩ := h
    exact ⟨hJ _ _ _ allowed, fun answered r genuine => ih r (later answered r genuine)⟩

theorem Reaches.everywhere {p q : Prog β} {m' : Moment σ} (h : p.Reaches m calls q m')
    (genuine : ∀ k ∈ calls, k.Genuine c) (hp : p.everywhere c J [] m) :
    q.everywhere c J calls m' := by
  induction h with
  | start => exact hp
  | @call calls o next asked h answered r ih =>
    have before := ih fun k hk => genuine k (List.mem_append_left _ hk)
    exact before.2 answered r (genuine _ (by simp))

end Prog

/-- What holds everywhere in a program holds of the rest of every request that waits. -/
theorem Session.Reachable.rest_of_blocked {s : Session σ α} {t : Thread σ α} (h : s.Reachable c)
    (ht : t ∈ s.threads) {J : List (Call σ) → (o : Op) → (o.Result → Prog α) → Prop}
    (hp : ∀ m, t.program.everywhere c J [] m) {o : Op} {pending : o.Pending}
    {next : o.Result → Prog α} (hs : t.state = .blocked o pending next) : J t.calls o next := by
  have follows := h.follows ht
  simp only [Thread.Follows, hs] at follows
  obtain ⟨m, reaches⟩ := follows
  exact (reaches.everywhere (fun k hk => h.genuine ht hk) (hp m)).1

/-! ## Parts that end without waiting -/

namespace World

variable {cancelled : Bool} {w w' : World σ}

theorem run_bind {p : Prog α} {a : α} (h : w.run c cancelled p = (w', .finished a))
    (f : α → Prog β) : w.run c cancelled (p.bind f) = w'.run c cancelled (f a) := by
  induction p generalizing w with
  | done b =>
    cases h
    rfl
  | op o next ih =>
    simp only [run, Prog.bind] at h ⊢
    rcases hs : w.start c cancelled o with ⟨w₁, r | pending⟩ <;> rw [hs] at h
    · exact ih r h
    · cases h

theorem run_action_bind {x : Action α} {a : α} (h : w.run c cancelled x = (w', .finished (.ok a)))
    (f : α → Action β) : w.run c cancelled (x >>= f : Action β) = w'.run c cancelled (f a) :=
  run_bind h (ExceptT.bindCont f)

end World

namespace Session

variable {s : Session σ α} {place : Nat} {t : Thread σ α}

theorem getElem?_spawn (h : s.threads.length = place) (cancelled : Bool) (p : Prog α) :
    (s.spawn cancelled p).threads[place]? =
      some ⟨⟨s.nextId, cancelled, .ready p⟩, p, [], [], s.moment⟩ :=
  h ▸ List.getElem?_concat_length

theorem getElem?_polled (ht : s.threads[place]? = some t) :
    (s.step c (.polled place)).threads[place]? = some (t.turn c s.edits .own s.world).2 := by
  simp only [step, Session.turn, ht]
  exact List.getElem?_set_self (List.getElem?_eq_some_iff.1 ht).1

/-- The turn of a request whose operation answers. -/
theorem exists_polled_of_answered (ht : s.threads[place]? = some t) {o : Op} {pending : o.Pending}
    {next : o.Result → Prog α} (hs : t.state = .blocked o pending next) {w : World σ}
    {r : o.Result} (hr : s.world.resume t.cancelled o pending = (w, .answered r)) :
    ∃ t', (s.step c (.polled place)).threads[place]? = some t' ∧
      t'.state = (w.run c t.cancelled (next r)).2 := by
  refine ⟨_, getElem?_polled ht, ?_⟩
  have erased := congrArg Task.state (t.turn_erase c s.edits .own s.world).2
  rw [erased]
  simp only [World.poll, World.turn, hs, hr]

end Session

end PolyglotLsp
