import PolyglotLsp.Proofs.Session.Answers

/-!
# A logic of request programs

Between the operations of a request anything can happen, so that a fact about all its runs is a fact
about all genuine answers. `Prog.wp` says that a program, begun at a moment after some calls, asks
only operations that a rule allows, and that a condition holds of its value and of the calls made by
then. Its rules follow the program text (`Action.wp_bind`, `Action.wp_call`, `Action.wp_mapM`), and
what it says of a program holds of every request with that program in every reachable session
(`Session.Reachable.meets`).
-/

namespace PolyglotLsp

variable {σ α β ι : Type} {c : Collaborators σ} {I : List (Call σ) → Op → Prop}

/-- A condition on a value, on the calls made so far, and on the moment. -/
abbrev Post (σ α : Type) := α → List (Call σ) → Moment σ → Prop

/-! ## Programs -/

theorem Prog.bind_done (p : Prog α) : p.bind .done = p := by
  induction p with
  | done a => rfl
  | op o next ih => exact congrArg (Prog.op o) (funext ih)

theorem Prog.bind_bind {γ : Type} (p : Prog α) (f : α → Prog β) (g : β → Prog γ) :
    (p.bind f).bind g = p.bind fun a => (f a).bind g := by
  induction p with
  | done a => rfl
  | op o next ih => exact congrArg (Prog.op o) (funext ih)

instance : LawfulMonad Prog :=
  LawfulMonad.mk' Prog Prog.bind_done (fun _ _ => rfl) Prog.bind_bind

namespace Prog

/-- Whatever genuine answers come, the program asks only what `I` allows after the calls made by
then, and ends in a value that meets `Q`. -/
def wp (c : Collaborators σ) (I : List (Call σ) → Op → Prop) :
    Prog α → Post σ α → List (Call σ) → Moment σ → Prop
  | .done a, Q, calls, m => Q a calls m
  | .op o next, Q, calls, m =>
    I calls o ∧ ∀ answered r, Call.Genuine c ⟨o, m, answered, r⟩ →
      (next r).wp c I Q (calls ++ [⟨o, m, answered, r⟩]) answered

theorem wp_bind (p : Prog α) (f : α → Prog β) (Q : Post σ β) (calls : List (Call σ))
    (m : Moment σ) :
    (p.bind f).wp c I Q calls m ↔ p.wp c I (fun a => (f a).wp c I Q) calls m := by
  induction p generalizing calls m with
  | done a => exact Iff.rfl
  | op o next ih =>
    refine and_congr_right fun _ => ?_
    exact forall_congr' fun answered => forall_congr' fun r => imp_congr_right fun _ => ih r _ _

/-- Calls are only ever added, so that a weaker condition may use those made before. -/
theorem wp_mono {p : Prog α} {Q Q' : Post σ α} {calls : List (Call σ)} {m : Moment σ}
    (h : p.wp c I Q calls m)
    (hQ : ∀ a calls' m', calls <+: calls' → Q a calls' m' → Q' a calls' m') :
    p.wp c I Q' calls m := by
  induction p generalizing calls m with
  | done a => exact hQ a calls m List.prefix_rfl h
  | op o next ih =>
    refine ⟨h.1, fun answered r hk => ih r (h.2 answered r hk) fun a calls' m' hp => ?_⟩
    exact hQ a calls' m' ((List.prefix_append ..).trans hp)

/-- A rule that allows only some operations says something of the calls that are added. -/
theorem wp_ops {J : Op → Prop} {p : Prog α} {Q : Post σ α} {calls : List (Call σ)} {m : Moment σ}
    (h : p.wp c (fun calls o => I calls o ∧ J o) Q calls m) :
    p.wp c I (fun a calls' m' => Q a calls' m' ∧
      ∃ more, calls' = calls ++ more ∧ ∀ k ∈ more, J k.op) calls m := by
  induction p generalizing calls m with
  | done a => exact ⟨h, [], by simp⟩
  | op o next ih =>
    obtain ⟨⟨hI, hJ⟩, hnext⟩ := h
    refine ⟨hI, fun answered r hk => wp_mono (ih r (hnext answered r hk)) ?_⟩
    rintro a calls' m' - ⟨hQ, more, rfl, hmore⟩
    refine ⟨hQ, ⟨o, m, answered, r⟩ :: more, by simp, fun k hk => ?_⟩
    rcases List.mem_cons.1 hk with rfl | hk
    · exact hJ
    · exact hmore k hk

/-- Two rules and two conditions hold together. -/
theorem wp_and {J : List (Call σ) → Op → Prop} {p : Prog α} {Q Q' : Post σ α}
    {calls : List (Call σ)} {m : Moment σ} (h : p.wp c I Q calls m) (h' : p.wp c J Q' calls m) :
    p.wp c (fun calls o => I calls o ∧ J calls o)
      (fun a calls' m' => Q a calls' m' ∧ Q' a calls' m') calls m := by
  induction p generalizing calls m with
  | done a => exact ⟨h, h'⟩
  | op o next ih =>
    refine ⟨⟨h.1, h'.1⟩, fun answered r hk => ?_⟩
    exact ih r (h.2 answered r hk) (h'.2 answered r hk)

theorem wp_trivial (p : Prog α) (calls : List (Call σ)) (m : Moment σ) :
    p.wp c (fun _ _ => True) (fun _ _ _ => True) calls m := by
  induction p generalizing calls m with
  | done a => trivial
  | op o next ih => exact ⟨trivial, fun answered r _ => ih r _ _⟩

end Prog

/-! ## Programs that may fail -/

namespace Action

/-- As `Prog.wp`, with a condition on the value of a program that does not fail. -/
def wp (c : Collaborators σ) (I : List (Call σ) → Op → Prop) (x : Action α) (Q : Post σ α)
    (calls : List (Call σ)) (m : Moment σ) : Prop :=
  Prog.wp c I x.run (fun e calls m => ∀ a, e = .ok a → Q a calls m) calls m

variable {Q Q' : Post σ α} {calls : List (Call σ)} {m : Moment σ}

@[simp] theorem wp_pure (a : α) : (pure a : Action α).wp c I Q = Q a := by
  funext calls m
  simp [wp, Prog.wp, pure, ExceptT.pure, ExceptT.mk, ExceptT.run]

@[simp] theorem wp_throw (e : RouterError) :
    (throw e : Action α).wp c I Q = fun _ _ => True := by
  funext calls m
  simp [wp, Prog.wp, throw, throwThe, MonadExceptOf.throw, pure, ExceptT.mk, ExceptT.run]

@[simp] theorem wp_ofExcept (e : Except RouterError α) :
    (ofExcept e).wp c I Q = fun calls m => ∀ a, e = .ok a → Q a calls m := rfl

theorem wp_call {o : Op} {Q : Post σ o.Result} (hI : I calls o)
    (h : ∀ answered r, Call.Genuine c ⟨o, m, answered, r⟩ →
      Q r (calls ++ [⟨o, m, answered, r⟩]) answered) : (call o).wp c I Q calls m := by
  refine ⟨hI, fun answered r hk a ha => ?_⟩
  cases ha
  exact h answered r hk

@[simp] theorem wp_bind (x : Action α) (f : α → Action β) {Q : Post σ β} :
    (x >>= f).wp c I Q = x.wp c I fun a => (f a).wp c I Q := by
  funext calls m
  refine propext ((Prog.wp_bind x.run (ExceptT.bindCont f) _ calls m).trans ⟨?_, ?_⟩)
  · refine fun h => Prog.wp_mono h ?_
    rintro _ calls' m' - ha a rfl
    exact ha
  · refine fun h => Prog.wp_mono h ?_
    rintro e calls' m' - ha
    cases e with
    | error e => exact nofun
    | ok a => exact ha a rfl

@[simp] theorem wp_map (x : Action α) (f : α → β) {Q : Post σ β} :
    (f <$> x).wp c I Q = x.wp c I fun a => Q (f a) := by
  rw [map_eq_pure_bind, wp_bind]
  simp only [wp_pure]

theorem wp_mono {x : Action α} (h : x.wp c I Q calls m)
    (hQ : ∀ a calls' m', calls <+: calls' → Q a calls' m' → Q' a calls' m') :
    x.wp c I Q' calls m :=
  Prog.wp_mono h fun _ calls' m' hp ha a he => hQ a calls' m' hp (ha a he)

theorem wp_ops {J : Op → Prop} {x : Action α}
    (h : x.wp c (fun calls o => I calls o ∧ J o) Q calls m) :
    x.wp c I (fun a calls' m' => Q a calls' m' ∧
      ∃ more, calls' = calls ++ more ∧ ∀ k ∈ more, J k.op) calls m :=
  Prog.wp_mono (Prog.wp_ops h) fun _ _ _ _ ⟨hQ, hmore⟩ a ha => ⟨hQ a ha, hmore⟩

theorem wp_and {J : List (Call σ) → Op → Prop} {x : Action α} (h : x.wp c I Q calls m)
    (h' : x.wp c J Q' calls m) :
    x.wp c (fun calls o => I calls o ∧ J calls o)
      (fun a calls' m' => Q a calls' m' ∧ Q' a calls' m') calls m :=
  Prog.wp_mono (Prog.wp_and h h') fun _ _ _ _ ⟨hQ, hQ'⟩ a ha => ⟨hQ a ha, hQ' a ha⟩

/-- What a loop over a list keeps: `Inv` of the items that are done and of their values. -/
theorem wp_mapM {f : ι → Action β} (Inv : List ι → Post σ (List β)) (items : List ι)
    (start : Inv [] [] calls m)
    (step : ∀ done x rest ys calls' m', items = done ++ x :: rest → Inv done ys calls' m' →
      (f x).wp c I (fun y => Inv (done ++ [x]) (ys ++ [y])) calls' m') :
    (items.mapM f).wp c I (Inv items) calls m := by
  suffices loop : ∀ rest done ys calls' m', items = done ++ rest → Inv done ys calls' m' →
      (rest.mapM f).wp c I (fun zs => Inv items (ys ++ zs)) calls' m' from
    loop items [] [] calls m rfl start
  intro rest
  induction rest with
  | nil =>
    intro done ys calls' m' hd hi
    rw [List.append_nil] at hd
    simpa [hd] using hi
  | cons x rest ih =>
    intro done ys calls' m' hd hi
    simp only [List.mapM_cons, wp_bind, wp_pure]
    refine wp_mono (step done x rest ys calls' m' hd hi) fun y calls'' m'' _ hy => ?_
    refine wp_mono (ih (done ++ [x]) (ys ++ [y]) calls'' m'' (by simp [hd]) hy) ?_
    intro zs _ _ _ hz
    simpa using hz

theorem wp_foldlM {f : β → ι → Action β} (Inv : Post σ β) (items : List ι) (first : β)
    (start : Inv first calls m)
    (step : ∀ x ∈ items, ∀ acc calls' m', Inv acc calls' m' →
      (f acc x).wp c I Inv calls' m') :
    (items.foldlM f first).wp c I Inv calls m := by
  induction items generalizing first calls m with
  | nil => simpa using start
  | cons x rest ih =>
    simp only [List.foldlM_cons, wp_bind]
    refine wp_mono (step x List.mem_cons_self first calls m start) fun acc calls' m' _ ha => ?_
    exact ih acc ha fun x' hx' => step x' (List.mem_cons_of_mem _ hx')

theorem wp_trivial (x : Action α) :
    x.wp c (fun _ _ => True) (fun _ _ _ => True) calls m :=
  Prog.wp_mono (Prog.wp_trivial ..) fun _ _ _ _ _ _ _ => trivial

end Action

/-! ## From programs to sessions -/

namespace Thread

variable {t : Thread σ α} {w w' : World σ} {m m' : Moment σ}

/-- The record of a request: its calls are genuine and were allowed when they were made, and servers
received only what operations asked of them that were allowed too. `asking` is the operation that
has not answered yet. -/
structure Recorded (c : Collaborators σ) (I : List (Call σ) → Op → Prop) (t : Thread σ α)
    (asking : Option Op) : Prop where
  genuine : ∀ k ∈ t.calls, k.Genuine c
  allowed : ∀ {earlier k later}, t.calls = earlier ++ k :: later → I earlier k.op
  sent : ∀ x ∈ t.sent, ∃ o, o.request? = some (x.method, x.params) ∧ I x.calls o ∧
    ((asking = some o ∧ t.calls = x.calls) ∨
      ∃ k later, t.calls = x.calls ++ k :: later ∧ k.op = o)

/-- An operation that begins has sent nothing yet. -/
theorem Recorded.asks (h : t.Recorded c I none) (o : Op) : t.Recorded c I (some o) := by
  refine ⟨h.genuine, h.allowed, fun x hx => ?_⟩
  obtain ⟨o', hreq, hI, hc | hc⟩ := h.sent x hx
  · cases hc.1
  · exact ⟨o', hreq, hI, .inr hc⟩

theorem Recorded.sends {o : Op} {requests : List (String × String × Json)}
    (h : t.Recorded c I (some o)) (hI : I t.calls o) (he : w.Extends w' requests)
    (hr : ∀ x ∈ requests, o.request? = some x.2) : (t.sends w w').Recorded c I (some o) := by
  refine ⟨h.genuine, h.allowed, fun x hx => ?_⟩
  rcases List.mem_append.1 hx with hx | hx
  · exact h.sent x hx
  · rw [he.requestsUpTo] at hx
    obtain ⟨y, hy, rfl⟩ := List.mem_map.1 hx
    exact ⟨o, hr y hy, hI, .inl ⟨rfl, rfl⟩⟩

theorem Recorded.answers {k : Call σ} (h : t.Recorded c I (some k.op)) (hk : k.Genuine c)
    (hI : I t.calls k.op) : (t.answers k).Recorded c I none := by
  refine ⟨fun k' hk' => ?_, fun {earlier k' later} hc => ?_, fun x hx => ?_⟩
  · rcases List.mem_append.1 hk' with hk' | hk'
    · exact h.genuine k' hk'
    · rw [List.mem_singleton.1 hk']
      exact hk
  · -- the calls up to the last one were allowed before, and the last one is the new one
    rcases List.eq_nil_or_concat later with rfl | ⟨later, k'', rfl⟩
    · obtain ⟨rfl, rfl⟩ := List.append_inj' hc rfl |>.imp_right (List.cons.inj · |>.1)
      exact hI
    · rw [List.concat_eq_append, ← List.cons_append, ← List.append_assoc] at hc
      exact h.allowed (List.append_inj' hc rfl).1
  · obtain ⟨o, hreq, hI', ⟨ho, hc⟩ | ⟨k', later, hc, ho⟩⟩ := h.sent x hx
    · cases ho
      exact ⟨k.op, hreq, hI', .inr ⟨k, [], by simp [Thread.answers, hc], rfl⟩⟩
    · exact ⟨o, hreq, hI', .inr ⟨k', later ++ [k], by simp [Thread.answers, hc], ho⟩⟩

theorem sends_of_extends (h : w.Extends w' []) : t.sends w w' = t := by
  simp [sends, h.requestsUpTo]

/-- How a request stands whose program meets `Q` under the rule `I`. -/
def Meets (c : Collaborators σ) (I : List (Call σ) → Op → Prop) (Q : Post σ α) (m : Moment σ)
    (t : Thread σ α) : Prop :=
  match t.state with
  | .ready p => p = t.program ∧ t.calls = [] ∧ t.sent = []
  | .blocked o pending next =>
    t.Recorded c I (some o) ∧ t.since.Sound ∧ t.since.edits <:+ m.edits ∧
      o.Awaits c t.since pending ∧ I t.calls o ∧
      ∀ answered r, Call.Genuine c ⟨o, t.since, answered, r⟩ →
        (next r).wp c I Q (t.calls ++ [⟨o, t.since, answered, r⟩]) answered
  | .finished a => t.Recorded c I none ∧ ∃ m', Q a t.calls m'

variable {Q : Post σ α}

/-- What happens elsewhere does not matter to a request. -/
theorem Meets.later (h : t.Meets c I Q m) (order : m.edits <:+ m'.edits) : t.Meets c I Q m' := by
  unfold Meets at h ⊢
  split
  · next hs => simpa only [hs] using h
  · next hs =>
    simp only [hs] at h
    obtain ⟨hrec, hsince, ho, hw, hI, hnext⟩ := h
    exact ⟨hrec, hsince, ho.trans order, hw, hI, hnext⟩
  · next hs => simpa only [hs] using h

theorem Meets.cancel (h : t.Meets c I Q m) : Meets c I Q m { t with cancelled := true } := by
  unfold Meets at h ⊢
  dsimp only
  split
  · next hs => simpa only [hs] using h
  · next hs =>
    simp only [hs] at h
    obtain ⟨hrec, hrest⟩ := h
    exact ⟨⟨hrec.genuine, hrec.allowed, hrec.sent⟩, hrest⟩
  · next hs =>
    simp only [hs] at h
    obtain ⟨hrec, hQ⟩ := h
    exact ⟨⟨hrec.genuine, hrec.allowed, hrec.sent⟩, hQ⟩

/-- A run of the program follows its calls one by one, up to the end or an operation that waits. -/
theorem run_meets {edits : List Store.Event} (p : Prog α) (t : Thread σ α) (w : World σ)
    (hw : w.core.store = Store.after edits) (hrec : t.Recorded c I none)
    (hp : p.wp c I Q t.calls ⟨w, edits⟩) :
    (t.run c edits p w).1.core.store = w.core.store ∧
      (t.run c edits p w).2.Meets c I Q ⟨(t.run c edits p w).1, edits⟩ := by
  induction p generalizing t w with
  | done a => exact ⟨rfl, ⟨hrec.genuine, hrec.allowed, hrec.sent⟩, ⟨w, edits⟩, hp⟩
  | op o next ih =>
    obtain ⟨hI, hnext⟩ := hp
    obtain ⟨requests, he, hr⟩ := w.start_extends c t.cancelled o
    simp only [run]
    rcases hs : w.start c t.cancelled o with ⟨w', r | pending⟩ <;> rw [hs] at he
    · have hk : Call.Genuine c ⟨o, ⟨w, edits⟩, ⟨w', edits⟩, r⟩ :=
        World.start_answered (m := ⟨w, edits⟩) hw hs
      have hrec' : (t.sends w w').Recorded c I (some o) := (hrec.asks o).sends hI he hr
      obtain ⟨hstore, hmeets⟩ := ih r ((t.sends w w').answers _) w'
        (he.store.trans hw) (Recorded.answers hrec' hk hI) (hnext _ r hk)
      exact ⟨hstore.trans he.store, hmeets⟩
    · have hrec' := (hrec.asks o).sends hI he hr
      refine ⟨he.store, ⟨hrec'.genuine, hrec'.allowed, hrec'.sent⟩, hw, List.suffix_rfl, ?_⟩
      exact ⟨World.start_waiting (m := ⟨w, edits⟩) hw hs, hI, hnext⟩

/-- A turn of a request whose program meets `Q` from every moment on. -/
theorem turn_meets {edits : List Store.Event} (t : Thread σ α) (turn : Turn) (w : World σ)
    (hw : w.core.store = Store.after edits)
    (hp : ∀ m : Moment σ, m.Sound → t.program.wp c I Q [] m) (ht : t.Meets c I Q ⟨w, edits⟩) :
    (t.turn c edits turn w).1.core.store = w.core.store ∧
      (t.turn c edits turn w).2.Meets c I Q ⟨(t.turn c edits turn w).1, edits⟩ := by
  unfold Thread.turn
  split
  · next p hs =>
    cases turn with
    | release server => exact ⟨rfl, ht⟩
    | own =>
      unfold Meets at ht
      simp only [hs] at ht
      obtain ⟨rfl, hc, hsent⟩ := ht
      have hrec : t.Recorded c I none := by
        refine ⟨?_, ?_, ?_⟩ <;> simp [hc, hsent]
      exact run_meets t.program t w hw hrec (hc ▸ hp ⟨w, edits⟩ hw)
  · next o pending next hs =>
    unfold Meets at ht
    simp only [hs] at ht
    obtain ⟨hrec, hsince, order, hwait, hI, hnext⟩ := ht
    obtain ⟨requests, he, hreq⟩ := w.turn_extends c t.cancelled o pending turn
    rcases hr : w.turn c t.cancelled o pending turn with ⟨w', r | pending'⟩ <;>
      simp only [hr] at he ⊢
    · have hk := World.turn_answered hr hsince hw order hwait
      obtain ⟨hstore, hmeets⟩ := run_meets (next r)
        ((t.sends w w').answers ⟨o, t.since, ⟨w', edits⟩, r⟩) w' (he.store.trans hw)
        (Recorded.answers (hrec.sends hI he hreq) hk hI) (hnext _ r hk)
      exact ⟨hstore.trans he.store, hmeets⟩
    · have hrec' := hrec.sends hI he hreq
      exact ⟨he.store, ⟨hrec'.genuine, hrec'.allowed, hrec'.sent⟩, hsince, order,
        World.turn_waiting hr hwait, hI, hnext⟩
  · exact ⟨rfl, ht⟩

end Thread

namespace Session

variable {s : Session σ α} {t : Thread σ α} {Q : Post σ α}

theorem notify_extends (c : Collaborators σ) (w : World σ) (notices : List Notice) :
    w.Extends (notify c w notices) [] := by
  have told : ∀ (n : Notice) (servers : List Server) (w : World σ),
      w.Extends (servers.foldl (fun w s => w.record (.notify s.name n.method n.params)) w) [] := by
    intro n servers
    induction servers with
    | nil => exact fun _ => .rfl
    | cons s rest ih => exact fun w => (w.extends_record _).trans (ih _)
  unfold notify
  induction notices generalizing w with
  | nil => exact .rfl
  | cons n rest ih => exact (told n _ w).trans (ih _)

/-- What every session keeps: the store is what its history has made of it, and each request stands
as its program says, under any rule and condition that the program meets. -/
def Lawful (c : Collaborators σ) (s : Session σ α) : Prop :=
  s.moment.Sound ∧ ∀ t ∈ s.threads, ∀ (I : List (Call σ) → Op → Prop) (Q : Post σ α),
    (∀ m : Moment σ, m.Sound → t.program.wp c I Q [] m) → t.Meets c I Q s.moment

theorem Lawful.elsewhere (h : s.Lawful c) {s' : Session σ α} (hs : s'.moment.Sound)
    (ht : ∀ t ∈ s'.threads, t ∈ s.threads) (order : s.edits <:+ s'.edits) : s'.Lawful c :=
  ⟨hs, fun t hm I Q hp => (h.2 t (ht t hm) I Q hp).later order⟩

theorem Lawful.spawn (h : s.Lawful c) (cancelled : Bool) (p : Prog α) :
    (s.spawn cancelled p).Lawful c := by
  refine ⟨h.1, fun t ht I Q hp => ?_⟩
  rcases List.mem_append.1 ht with ht | ht
  · exact h.2 t ht I Q hp
  · rw [List.mem_singleton.1 ht]
    exact ⟨rfl, rfl, rfl⟩

theorem Lawful.cancel (h : s.Lawful c) (id : Nat) : (s.cancel id).Lawful c := by
  refine ⟨h.1, fun t ht I Q hp => ?_⟩
  obtain ⟨t', ht', rfl⟩ := List.mem_map.1 ht
  by_cases hid : t'.id = id
  · simp only [if_pos hid] at hp ⊢
    exact (h.2 t' ht' I Q hp).cancel
  · simp only [if_neg hid] at hp ⊢
    exact h.2 t' ht' I Q hp

theorem Lawful.turn (h : s.Lawful c) (place : Nat) (turn : Turn) :
    (s.turn c place turn).Lawful c := by
  unfold Session.turn
  split
  · exact h
  · next t ht =>
    have hm : t ∈ s.threads := List.mem_of_getElem? ht
    have hw : s.world.core.store = Store.after s.edits := h.1
    obtain ⟨hstore, -⟩ := t.turn_meets turn s.world hw (fun m _ => Prog.wp_trivial ..)
      (h.2 t hm _ _ fun m _ => Prog.wp_trivial ..)
    refine ⟨hstore.trans h.1, fun t' ht' I Q hp => ?_⟩
    rcases List.mem_or_eq_of_mem_set ht' with ht' | rfl
    · exact h.2 t' ht' I Q hp
    · rw [Thread.program_turn] at hp
      exact (t.turn_meets turn s.world hw hp (h.2 t hm I Q hp)).2

theorem Reachable.lawful (h : s.Reachable c) : s.Lawful c := by
  induction h with
  | new outside => exact ⟨rfl, fun _ ht => absurd ht List.not_mem_nil⟩
  | @step s h e ih =>
    cases e with
    | changed k =>
      refine ih.elsewhere ?_ (fun _ ht => ht) (List.suffix_append ..)
      exact (notify_extends c _ _).store.trans (Core.store_change ih.1 k)
    | elsewhere | listened | clock => exact ih.elsewhere ih.1 (fun _ ht => ht) List.suffix_rfl
    | spawned cancelled p => exact ih.spawn cancelled p
    | cancelled id => exact ih.cancel id
    | dropped id =>
      exact ih.elsewhere ih.1 (fun _ ht => (List.mem_filter.1 ht).1) List.suffix_rfl
    | polled place => exact ih.turn place .own
    | released place server => exact ih.turn place (.release server)

/-- What is shown of a program holds of every request that runs it. -/
theorem Reachable.meets (h : s.Reachable c) (ht : t ∈ s.threads)
    (hp : ∀ m : Moment σ, m.Sound → t.program.wp c I Q [] m) : t.Meets c I Q s.moment :=
  h.lawful.2 t ht I Q hp

end Session

namespace Thread

variable {t : Thread σ α} {m : Moment σ} {Q : Post σ α}

theorem Meets.recorded (h : t.Meets c I Q m) : ∃ asking, t.Recorded c I asking := by
  unfold Meets at h
  split at h
  · obtain ⟨-, hc, hsent⟩ := h
    exact ⟨none, by refine ⟨?_, ?_, ?_⟩ <;> simp [hc, hsent]⟩
  · exact ⟨_, h.1⟩
  · exact ⟨none, h.1⟩

theorem Meets.finished (h : t.Meets c I Q m) {a : α} (ha : t.state = .finished a) :
    ∃ m', Q a t.calls m' := by
  unfold Meets at h
  simp only [ha] at h
  exact h.2

end Thread

/-- The reply of a request that has ended well. -/
def Thread.reply? (t : Thread σ (Except RouterError α)) : Option α :=
  match t.state with
  | .finished (.ok a) => some a
  | _ => none

theorem Thread.finished_of_reply? {t : Thread σ (Except RouterError α)} {a : α}
    (h : t.reply? = some a) : t.state = .finished (.ok a) := by
  unfold reply? at h
  split at h
  · next ended =>
    cases h
    exact ended
  · cases h

namespace Session.Reachable

/-- Every call of every request in every session is genuine. -/
theorem genuine {s : Session σ α} {t : Thread σ α} (h : s.Reachable c) (ht : t ∈ s.threads)
    {k : Call σ} (hk : k ∈ t.calls) : k.Genuine c := by
  obtain ⟨_, hrec⟩ := (h.meets ht fun m _ => Prog.wp_trivial ..).recorded
  exact hrec.genuine k hk

variable {s : Session σ (Except RouterError α)} {t : Thread σ (Except RouterError α)}
  {x : Action α} {Q : Post σ α}

theorem recorded (h : s.Reachable c) (ht : t ∈ s.threads) (hx : t.program = x)
    (hp : ∀ m : Moment σ, m.Sound → x.wp c I Q [] m) : ∃ asking, t.Recorded c I asking :=
  (h.meets ht (hx ▸ hp)).recorded

theorem finished (h : s.Reachable c) (ht : t ∈ s.threads) (hx : t.program = x)
    (hp : ∀ m : Moment σ, m.Sound → x.wp c I Q [] m) {a : α} (ha : t.reply? = some a) :
    ∃ m, Q a t.calls m := by
  obtain ⟨m, hQ⟩ := (h.meets ht (hx ▸ hp)).finished (Thread.finished_of_reply? ha)
  exact ⟨m, hQ a rfl⟩

end Session.Reachable

attribute [irreducible] Action.wp

end PolyglotLsp
