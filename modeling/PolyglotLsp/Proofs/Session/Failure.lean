import PolyglotLsp.Proofs.Session.Logic

/-!
# How requests end

`Action.wp` says what holds of a program that ends well. `Action.ends` says besides what holds of
the error of a program that does not. Its rules are the same: a failure of two programs in sequence
is one of the first, or one of the second after the first has ended well (`Action.ends_bind`). Of
the operations none fails by itself, but what it answers may be an error (`Call.error?`), with which
the program may then end. What is shown of a program holds of all requests that run it
(`Action.ends_in_sessions`).
-/

namespace PolyglotLsp

variable {σ α β ι : Type} {c : Collaborators σ} {E E' : RouterError → List (Call σ) → Prop}
  {Q Q' : Post σ α} {calls : List (Call σ)} {m : Moment σ}

/-- The error that an operation answered. -/
def Call.error? : Call σ → Option RouterError
  | ⟨.classify .., _, _, some (.error e)⟩ => some e
  | ⟨.mapRanges .., _, _, some (.error e)⟩ => some e
  | ⟨.remapEdits .., _, _, some (.error e)⟩ => some e
  | ⟨.documentContext _, _, _, .error e⟩ => some e
  | ⟨.askFirst .., _, _, .error e⟩ => some e
  | ⟨.askAll .., _, _, .error e⟩ => some e
  | ⟨.ask .., _, _, .error e⟩ => some e
  | _ => none

namespace Action

/-- Whatever genuine answers come, the program ends in a value that meets `Q` or in an error that
meets `E`. -/
def ends (c : Collaborators σ) (x : Action α) (Q : Post σ α)
    (E : RouterError → List (Call σ) → Prop) (calls : List (Call σ)) (m : Moment σ) : Prop :=
  Prog.wp c (fun _ _ => True) x.run (fun outcome calls m =>
    (∀ a, outcome = .ok a → Q a calls m) ∧ ∀ e, outcome = .error e → E e calls) calls m

@[simp] theorem ends_pure (a : α) : (pure a : Action α).ends c Q E = Q a := by
  funext calls m
  simp [ends, Prog.wp, pure, ExceptT.pure, ExceptT.mk, ExceptT.run]

@[simp] theorem ends_throw (e : RouterError) :
    (throw e : Action α).ends c Q E = fun calls _ => E e calls := by
  funext calls m
  simp [ends, Prog.wp, throw, throwThe, MonadExceptOf.throw, pure, ExceptT.mk, ExceptT.run]

@[simp] theorem ends_ofExcept (outcome : Except RouterError α) :
    (ofExcept outcome).ends c Q E = fun calls m =>
      (∀ a, outcome = .ok a → Q a calls m) ∧ ∀ e, outcome = .error e → E e calls := rfl

theorem ends_call {o : Op} {Q : Post σ o.Result}
    (h : ∀ answered r, Call.Genuine c ⟨o, m, answered, r⟩ →
      Q r (calls ++ [⟨o, m, answered, r⟩]) answered) : (call o).ends c Q E calls m := by
  refine ⟨trivial, fun answered r genuine => ⟨?_, nofun⟩⟩
  rintro _ ⟨⟩
  exact h answered r genuine

@[simp] theorem ends_bind (x : Action α) (f : α → Action β) {Q : Post σ β} :
    (x >>= f).ends c Q E = x.ends c (fun a => (f a).ends c Q E) E := by
  funext calls m
  refine propext ((Prog.wp_bind x.run (ExceptT.bindCont f) _ calls m).trans ⟨?_, ?_⟩)
  · refine fun h => Prog.wp_mono h fun outcome calls' m' _ next => ⟨?_, ?_⟩
    · rintro a rfl
      exact next
    · rintro e rfl
      exact next.2 e rfl
  · refine fun h => Prog.wp_mono h ?_
    rintro outcome calls' m' - ⟨value, error⟩
    cases outcome with
    | error e => exact ⟨nofun, fun _ he => Except.error.inj he ▸ error e rfl⟩
    | ok a => exact value a rfl

@[simp] theorem ends_map (x : Action α) (f : α → β) {Q : Post σ β} :
    (f <$> x).ends c Q E = x.ends c (fun a => Q (f a)) E := by
  rw [map_eq_pure_bind, ends_bind]
  simp only [ends_pure]

theorem ends_mono {x : Action α} (h : x.ends c Q E calls m)
    (hQ : ∀ a calls' m', calls <+: calls' → Q a calls' m' → Q' a calls' m') :
    x.ends c Q' E calls m :=
  Prog.wp_mono h fun _ calls' m' before ⟨value, error⟩ =>
    ⟨fun a ha => hQ a calls' m' before (value a ha), error⟩

theorem ends_mono_error {x : Action α} (h : x.ends c Q E calls m)
    (hE : ∀ e calls', E e calls' → E' e calls') : x.ends c Q E' calls m :=
  Prog.wp_mono h fun _ calls' _ _ ⟨value, error⟩ => ⟨value, fun e he => hE e calls' (error e he)⟩

/-- What a loop over a list keeps: `Inv` of the items that are done and of their values. -/
theorem ends_mapM {f : ι → Action β} (Inv : List ι → Post σ (List β)) (items : List ι)
    (start : Inv [] [] calls m)
    (step : ∀ done x rest ys calls' m', items = done ++ x :: rest → Inv done ys calls' m' →
      (f x).ends c (fun y => Inv (done ++ [x]) (ys ++ [y])) E calls' m') :
    (items.mapM f).ends c (Inv items) E calls m := by
  suffices loop : ∀ rest done ys calls' m', items = done ++ rest → Inv done ys calls' m' →
      (rest.mapM f).ends c (fun zs => Inv items (ys ++ zs)) E calls' m' from
    loop items [] [] calls m rfl start
  intro rest
  induction rest with
  | nil =>
    intro done ys calls' m' whole kept
    rw [List.append_nil] at whole
    simpa [whole] using kept
  | cons x rest ih =>
    intro done ys calls' m' whole kept
    simp only [List.mapM_cons, ends_bind, ends_pure]
    refine ends_mono (step done x rest ys calls' m' whole kept) fun y calls'' m'' _ hy => ?_
    refine ends_mono (ih (done ++ [x]) (ys ++ [y]) calls'' m'' (by simp [whole]) hy) ?_
    intro zs _ _ _ hz
    simpa using hz

end Action

/-- The error of a request that has failed. -/
def Thread.failure? (t : Thread σ (Except RouterError α)) : Option RouterError :=
  match t.state with
  | .finished (.error e) => some e
  | _ => none

theorem Thread.finished_of_failure? {t : Thread σ (Except RouterError α)} {e : RouterError}
    (h : t.failure? = some e) : t.state = .finished (.error e) := by
  unfold failure? at h
  split at h
  · next ended =>
    cases h
    exact ended
  · cases h

/-- In every session, `Q` holds of the reply to every request that runs this program, `E` of its
error if it fails, and both of the calls that were made for it. -/
def Action.Concludes (c : Collaborators σ) (x : Action α) (Q : α → List (Call σ) → Prop)
    (E : RouterError → List (Call σ) → Prop) : Prop :=
  ∀ s : Session σ (Except RouterError α), s.Reachable c → ∀ t ∈ s.threads, t.program = x →
    (∀ a, t.reply? = some a → Q a t.calls) ∧ ∀ e, t.failure? = some e → E e t.calls

theorem Action.ends_in_sessions {x : Action α} {Q : α → List (Call σ) → Prop}
    (h : ∀ m, x.ends c (fun a calls _ => Q a calls) E [] m) : x.Concludes c Q E := by
  intro s reachable t ht program
  have meets := reachable.meets ht fun m _ => program ▸ h m
  refine ⟨fun a replied => ?_, fun e failed => ?_⟩
  · obtain ⟨_, holds⟩ := meets.finished (Thread.finished_of_reply? replied)
    exact holds.1 a rfl
  · obtain ⟨_, holds⟩ := meets.finished (Thread.finished_of_failure? failed)
    exact holds.2 e rfl

attribute [irreducible] Action.ends

end PolyglotLsp
