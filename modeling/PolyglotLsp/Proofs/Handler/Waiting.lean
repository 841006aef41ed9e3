import PolyglotLsp.Handler.Request
import PolyglotLsp.Proofs.Handler.Completion
import PolyglotLsp.Proofs.Handler.Navigation
import PolyglotLsp.Proofs.Session.Rest

/-!
# Where requests about a position wait

A request about a position waits for the classifier, for the synchronizer, and for the servers that
it is forwarded to, before it takes their answer back to the host. `Action.Waits` says what is left
of it at each of these places. An operation that is given up answers nothing (`Op.gaveUp?`), and
then most requests are at their end with nothing to show (`waits_answerPosition`). Two are not, once
they have been forwarded: a completion in markup still adds the names of tag helpers
(`withoutServers`), and references still gather what was streamed (`gather`).
-/

namespace PolyglotLsp

variable {σ α β : Type} {c : Collaborators σ} {calls : List (Call σ)} {m : Moment σ}

/-- What an operation answers that is given up while it waits for the classifier, the synchronizer
or the first of several servers. -/
def Op.gaveUp? : (o : Op) → Option o.Result
  | .classify .. => some none
  | .synchronize .. => some none
  | .askFirst .. => some (.ok none)
  | _ => none

/-- A rule that allows neither to get ready nor to ask servers. -/
def Quiet (_ : List (Call σ)) (o : Op) : Prop := o.asks = false ∧ o.prepares = false

theorem free_quiet : Free (Quiet (σ := σ)) := fun _ _ asks prepares _ => ⟨asks, prepares⟩

/-- A condition on the rest of a program that may fail. -/
abbrev Rest (σ α : Type) :=
  List (Call σ) → (o : Op) → (o.Result → Prog (Except RouterError α)) → Prop

/-- The place is never reached. -/
def Never : Rest σ α := fun _ _ _ => False

/-- The program ends with a value when the operation is given up. -/
def Ends (nothing : α) : Rest σ α := fun _ o next =>
  ∀ r, o.gaveUp? = some r → next r = .done (.ok nothing)

/-- What a program has for a rest when another one goes on after it. -/
def Rest.Carries (rest : Rest σ α) (f : α → Action β) (rest' : Rest σ β) : Prop :=
  ∀ calls o next, rest calls o next →
    rest' calls o fun r => (next r).bind (ExceptT.bindCont f)

theorem carries_never {f : α → Action β} {rest' : Rest σ β} :
    Rest.Carries (σ := σ) Never f rest' := fun _ _ _ h => h.elim

theorem carries_ends {nothing : α} {nothing' : β} {f : α → Action β}
    (h : f nothing = pure nothing') : Rest.Carries (σ := σ) (Ends nothing) f (Ends nothing') := by
  intro calls o next ends r hr
  show (next r).bind (ExceptT.bindCont f) = _
  rw [ends r hr]
  exact h

namespace Action

/-- What is left of a program where it gets ready to ask servers, and where it asks them. -/
def Waits (c : Collaborators σ) (ready asking : Rest σ α) (x : Action α) (calls : List (Call σ))
    (m : Moment σ) : Prop :=
  Prog.everywhere c (fun calls o next =>
    (o.prepares = true → ready calls o next) ∧ (o.asks = true → asking calls o next)) x calls m

variable {ready asking : Rest σ α} {ready' asking' : Rest σ β}

theorem waits_pure (a : α) : (pure a : Action α).Waits c ready asking calls m := trivial

theorem waits_ofExcept (e : Except RouterError α) :
    (ofExcept e).Waits c ready asking calls m := trivial

theorem waits_call {o : Op} {ready asking : Rest σ o.Result}
    (hr : o.prepares = true → ready calls o fun r => .done (.ok r))
    (ha : o.asks = true → asking calls o fun r => .done (.ok r)) :
    (call o).Waits c ready asking calls m := ⟨⟨hr, ha⟩, fun _ _ _ => trivial⟩

theorem waits_of_quiet {x : Action α} {Q : Post σ α} (h : x.wp c Quiet Q calls m) :
    x.Waits c ready asking calls m := by
  unfold wp at h
  refine Prog.everywhere_of_wp h fun calls o next quiet => ⟨?_, ?_⟩
  · intro prepares
    rw [quiet.2] at prepares
    cases prepares
  · intro asks
    rw [quiet.1] at asks
    cases asks

/-- A program that goes on after another. -/
theorem waits_bind {I : List (Call σ) → Op → Prop} {x : Action α} {f : α → Action β} {Q : Post σ α}
    (hx : x.Waits c ready asking calls m) (hq : x.wp c I Q calls m)
    (hr : ready.Carries f ready') (ha : asking.Carries f asking')
    (hf : ∀ a calls m, Q a calls m → (f a).Waits c ready' asking' calls m) :
    (x >>= f).Waits c ready' asking' calls m := by
  unfold wp at hq
  refine Prog.everywhere_bind (Prog.everywhere_mono hx fun calls o next h => ?_) hq ?_
  · exact ⟨fun prepares => hr calls o next (h.1 prepares),
      fun asks => ha calls o next (h.2 asks)⟩
  · rintro (e | a) calls m post
    · trivial
    · exact hf a calls m (post a rfl)

theorem waits_call_bind {o : Op} {f : o.Result → Action β}
    (hr : o.prepares = true → ready' calls o f) (ha : o.asks = true → asking' calls o f)
    (hf : ∀ answered r, (f r).Waits c ready' asking' (calls ++ [⟨o, m, answered, r⟩]) answered) :
    (call o >>= f).Waits c ready' asking' calls m :=
  ⟨⟨hr, ha⟩, fun answered r _ => hf answered r⟩

theorem waits_bind_of_quiet {x : Action α} {f : α → Action β} {Q : Post σ α}
    (hx : x.wp c Quiet Q calls m)
    (hf : ∀ a calls m, Q a calls m → (f a).Waits c ready' asking' calls m) :
    (x >>= f).Waits c ready' asking' calls m :=
  waits_bind (waits_of_quiet hx) hx carries_never carries_never hf

/-- A program that goes on after one that gets ready: where the first comes to nothing, so does the
whole. -/
theorem waits_bind_of_ready {nothing : α} {nothing' : β} {x : Action α} {f : α → Action β}
    (hx : x.Waits c (Ends nothing) Never calls m) (hn : f nothing = pure nothing')
    (hf : ∀ a calls m, (f a).Waits c (Ends nothing') asking' calls m) :
    (x >>= f).Waits c (Ends nothing') asking' calls m :=
  waits_bind hx (wp_trivial x) (carries_ends hn) carries_never fun a calls m _ => hf a calls m

attribute [irreducible] Waits

end Action

/-! ## Projections -/

namespace Projection

open PolyglotLsp.Action

theorem waits_hostOf (uri : Uri) : (hostOf uri).Waits c (Ends none) Never calls m := by
  unfold hostOf
  split
  · exact waits_pure _
  · next url _ => exact waits_call (o := .host url) (fun _ _ => nofun) nofun

theorem waits_synchronized (h : HostSnapshot) (a : Classification) :
    (synchronized h a).Waits c (Ends none) Never calls m := by
  unfold synchronized
  split
  · exact waits_pure _
  split
  · exact waits_pure _
  next d _ =>
  split
  · exact waits_pure _
  · refine waits_call_bind (fun _ r hr => ?_) nofun fun _ _ => waits_pure _
    cases hr
    rfl

theorem waits_resolve (place : Place) : (resolve place).Waits c (Ends none) Never calls m := by
  refine waits_bind_of_ready (waits_hostOf place.uri) rfl ?_
  rintro (_ | host) calls m
  · exact waits_pure _
  refine waits_call_bind (fun _ r hr => ?_) nofun fun answered answer => ?_
  · cases hr
    rfl
  rcases answer with _ | answer
  · exact waits_pure _
  refine waits_bind_of_quiet (Q := fun _ _ _ => True) (by simp) ?_
  rintro (_ | a) calls m -
  · exact waits_pure _
  refine waits_bind_of_ready (waits_synchronized host a) rfl ?_
  rintro (_ | url) calls m
  · exact waits_pure _
  refine waits_bind_of_quiet (Q := fun _ _ _ => True)
    (wp_call ⟨rfl, rfl⟩ fun _ _ _ => trivial) fun contentTypes calls m _ => ?_
  refine waits_bind_of_quiet (Q := fun _ _ _ => True)
    (wp_serverUri url fun _ _ => trivial) fun uri calls m _ => ?_
  exact waits_pure _

/-- A request about a position that has been projected. -/
theorem waits_projecting {r : PositionRequest} {f : Projection → Action (Option β)}
    {asking : Rest σ (Option β)}
    (hf : ∀ p v a calls m, Projected r.place p v a calls →
      (f p).Waits c (Ends none) asking calls m) :
    (do match ← resolve r.place with
        | none => pure none
        | some p => f p : Action (Option β)).Waits c (Ends none) asking [] m := by
  refine waits_bind (waits_resolve r.place)
    (wp_resolve (I := fun _ _ => True) r.place fun _ _ _ _ _ => trivial) (carries_ends rfl)
    carries_never ?_
  rintro (_ | p) calls m hp
  · exact waits_pure _
  · obtain ⟨v, a, projected⟩ := hp p rfl
    exact hf p v a calls m projected

/-- The calls have come to these, and the program ends with a value when it is given up. -/
def EndsAt (calls : List (Call σ)) (nothing : α) : Rest σ α := fun calls' o next =>
  calls' = calls ∧ Ends nothing calls o next

theorem waits_forward (p : Projection) (shape : Shape) (r : PositionRequest) :
    (p.forward shape r).Waits c Never (EndsAt calls none) calls m := by
  refine waits_call_bind nofun (fun _ => ⟨rfl, fun outcome ho => ?_⟩)
    fun _ outcome => waits_ofExcept outcome
  cases ho
  rfl

/-- A request that is forwarded, and has nothing to show without an answer. -/
theorem waits_forwarding (p : Projection) (shape : Shape) (r : PositionRequest)
    {f : Option (Tagged shape.Val) → Action (Option β)} (hn : f none = pure none)
    {ready asking : Rest σ (Option β)}
    (ha : ∀ o next, Ends none calls o next → asking calls o next)
    (hf : ∀ answer calls m, (f (some answer)).Waits c ready asking calls m) :
    (p.forward shape r >>= f).Waits c ready asking calls m := by
  refine waits_bind (waits_forward p shape r) (wp_trivial _) carries_never ?_ ?_
  · rintro calls' o next ⟨rfl, ends⟩
    exact ha _ _ (carries_ends hn _ o next ends)
  · rintro (_ | answer) calls m -
    · rw [hn]
      exact waits_pure _
    · exact hf answer calls m

end Projection

/-! ## Handlers -/

namespace Handler

open PolyglotLsp.Action Projection

variable {r : PositionRequest}

theorem waits_hover : (hover r).Waits c (Ends none) (Ends none) [] m := by
  refine waits_projecting fun p _ _ calls m _ => ?_
  refine waits_forwarding p _ r (by rfl) (fun _ _ ends => ends) fun answer calls m => ?_
  dsimp only
  split
  · exact waits_pure _
  · refine waits_bind_of_quiet (Mapping.wp_mapRanges free_quiet ..) fun mapped calls m _ => ?_
    cases mapped <;> exact waits_pure _

theorem waits_highlight : (highlight r).Waits c (Ends none) (Ends none) [] m := by
  refine waits_projecting fun p _ _ calls m _ => ?_
  refine waits_forwarding p _ r (by rfl) (fun _ _ ends => ends) fun answer calls m => ?_
  dsimp only
  split
  · exact waits_pure _
  · refine waits_bind_of_quiet (Mapping.wp_mapRanges free_quiet ..) fun mapped calls m _ => ?_
    cases mapped <;> exact waits_pure _

theorem waits_linkedEditing : (linkedEditing r).Waits c (Ends none) (Ends none) [] m := by
  refine waits_projecting fun p _ _ calls m _ => ?_
  split
  · exact waits_pure _
  refine waits_forwarding p _ r (by rfl) (fun _ _ ends => ends) fun answer calls m => ?_
  refine waits_bind_of_quiet (Mapping.wp_mapRanges free_quiet ..) fun mapped calls m _ => ?_
  cases mapped <;> exact waits_pure _

theorem waits_onTypeFormatting (options : FormattingOptions) :
    (onTypeFormatting r options).Waits c (Ends none) (Ends none) [] m := by
  refine waits_projecting fun p _ _ calls m _ => ?_
  split
  · exact waits_pure _
  refine waits_forwarding p _ r (by rfl) (fun _ _ ends => ends) fun answer calls m => ?_
  exact waits_bind_of_quiet (Mapping.wp_remapEdits free_quiet ..) fun _ _ _ _ => waits_pure _

theorem waits_rename : (rename r).Waits c (Ends none) (Ends none) [] m := by
  refine waits_projecting fun p _ _ calls m _ => ?_
  split
  · exact waits_pure _
  refine waits_forwarding p _ r (by rfl) (fun _ _ ends => ends) fun answer calls m => ?_
  exact waits_bind_of_quiet (Mapping.wp_remapWorkspaceEdit free_quiet _) fun _ _ _ _ => waits_pure _

theorem waits_definition : (definition r).Waits c (Ends none) (Ends none) [] m := by
  refine waits_projecting fun p _ _ calls m _ => ?_
  refine waits_forwarding p _ r (by rfl) (fun _ _ ends => ends) fun answer calls m => ?_
  exact waits_bind_of_quiet (wp_remapDefinition free_quiet _) fun _ _ _ _ => waits_pure _

/-! ### Completion -/

/-- What is left of a completion for which no server has a list. -/
def withoutServers (p : Projection) : Action (Option CompletionList) :=
  if p.language = .html then do
    let items ← tagHelperItems p
    pure (extend none items)
  else pure none

/-- A completion that waits for servers goes on without them. -/
def GoesOn (r : PositionRequest) : Rest σ (Option CompletionList) := fun calls o next =>
  ∃ p v a, Projected r.place p v a calls ∧
    ∀ outcome, o.gaveUp? = some outcome → next outcome = withoutServers p

theorem waits_serverList (p : Projection) (r : PositionRequest) :
    (serverList p r).Waits c Never (EndsAt calls none) calls m := by
  refine waits_forwarding p _ r (by rfl) (fun _ _ ends => ⟨rfl, ends⟩) fun answer calls m => ?_
  refine waits_bind_of_quiet (wp_remapPrimary free_quiet ..) fun moved calls m hmoved => ?_
  refine waits_bind_of_quiet (wp_remapItems free_quiet _ _ _ _ hmoved) fun items calls m _ => ?_
  refine waits_bind_of_quiet (Q := fun _ _ _ => True)
    (wp_call ⟨rfl, rfl⟩ fun _ _ _ => trivial) fun id calls m _ => ?_
  exact waits_pure _

theorem waits_completion (trigger : Option CompletionTrigger) :
    (completion r trigger).Waits c (Ends none) (GoesOn r) [] m := by
  refine waits_projecting fun p v a calls m hp => ?_
  split
  · exact waits_pure _
  refine waits_bind (waits_serverList p _) (wp_trivial _) carries_never ?_ ?_
  · rintro calls' o next ⟨rfl, ends⟩
    refine ⟨p, v, a, hp, fun outcome ho => ?_⟩
    show (next outcome).bind _ = _
    rw [ends outcome ho]
    rfl
  · rintro list calls m -
    split
    · exact waits_bind_of_quiet (wp_tagHelperItems free_quiet p) fun _ _ _ _ => waits_pure _
    · exact waits_pure _

/-! ### References -/

/-- What is left of references once servers have answered: what they streamed is gathered, and the
answer that counts follows. -/
def gather (listening : Option (Nat × Token))
    (outcome : Except RouterError (Option (Tagged (List Location)))) :
    Action (Option (List Location)) := do
  let payloads ← stopListening listening
  let answer ← Action.ofExcept outcome
  let streamed := streamedLocations payloads
  if answer.isNone && streamed.isEmpty then pure none
  else do
    let locations ← Mapping.remapLocations (streamed ++ (answer.map (·.value)).getD [])
    pure (some locations)

/-- References that wait for servers gather what comes: the latest call was that to listen, and the
servers have been given the token. -/
inductive Gathers (r : PositionRequest) : Rest σ (Option (List Location))
  | intro {p : Projection} {v : VirtualUri} {a : Classification} {calls : List (Call σ)}
      (projected : Projected r.place p v a calls) (asked answered : Moment σ)
      (listening : Option (Nat × Token)) :
      Gathers r (calls ++ [⟨.listen, asked, answered, listening⟩])
        (.askFirst .locations r.ask.method p.contentTypes (.ok
          { r.movedTo p.uri p.position with
            partialResultToken := listening.map Prod.snd }.toJson))
        (gather listening)

theorem waits_references : (references r).Waits c (Ends none) (Gathers r) [] m := by
  refine waits_projecting fun p v a calls m hp => ?_
  refine waits_call_bind nofun nofun fun answered listening => ?_
  refine waits_call_bind nofun (fun _ => .intro hp m answered listening) fun _ outcome => ?_
  refine waits_bind_of_quiet (wp_stopListening free_quiet fun id token given => ?_)
    fun payloads calls m _ => ?_
  · subst given
    exact ⟨⟨.listen, m, answered, some (id, token)⟩, by simp, rfl⟩
  refine waits_bind_of_quiet (Q := fun _ _ _ => True) (by simp) fun answer calls m _ => ?_
  dsimp only
  split
  · exact waits_pure _
  · exact waits_bind_of_quiet (Mapping.wp_remapLocations free_quiet _) fun _ _ _ _ => waits_pure _

end Handler

/-! ## All requests about a position -/

/-- The answer to a request that comes to nothing. -/
def Ask.nothing : Ask → Answer
  | .hover => .hover none
  | .definition => .definition none
  | .highlight => .highlights none
  | .linkedEditing => .linkedRanges none
  | .completion _ => .completion none
  | .references _ => .references none
  | .rename _ => .rename none
  | .onTypeFormatting .. => .edits none

/-- The rest of a program whose value is made into another. -/
def Rest.map (g : α → β) (rest : Rest σ α) : Rest σ β := fun calls o next =>
  ∃ next', rest calls o next' ∧
    next = fun r => (next' r).bind (ExceptT.bindCont fun a => pure (g a))

/-- What is left of a request about a position that waits for servers. -/
def PositionRequest.asking (r : PositionRequest) : Rest σ Answer :=
  match r.ask with
  | .completion _ => (Handler.GoesOn r).map .completion
  | .references _ => (Handler.Gathers r).map .references
  | ask => Ends ask.nothing

theorem Action.waits_map {nothing : α} {asking : Rest σ α} {x : Action α} (g : α → β)
    {asking' : Rest σ β} (hx : x.Waits c (Ends nothing) asking calls m)
    (ha : asking.Carries (fun a => pure (g a)) asking') :
    (g <$> x).Waits c (Ends (g nothing)) asking' calls m := by
  rw [map_eq_pure_bind]
  exact waits_bind hx (wp_trivial x) (carries_ends rfl) ha fun _ _ _ _ => waits_pure _

theorem carries_map {rest : Rest σ α} {g : α → β} :
    rest.Carries (fun a => pure (g a)) (rest.map g) := fun _ _ next h => ⟨next, h, rfl⟩

theorem Action.waits_map_of_ends {nothing : Option α} {x : Action (Option α)}
    (g : Option α → Answer) (hx : x.Waits c (Ends nothing) (Ends nothing) calls m) :
    (g <$> x).Waits c (Ends (g nothing)) (Ends (g nothing)) calls m :=
  waits_map g hx (carries_ends rfl)

theorem Request.waits_answerPosition (r : PositionRequest) :
    (answerPosition r).Waits c (Ends r.ask.nothing) r.asking [] m := by
  unfold answerPosition PositionRequest.asking
  cases r.ask with
  | hover => exact Action.waits_map_of_ends .hover (Handler.waits_hover (r := r))
  | definition => exact Action.waits_map_of_ends .definition (Handler.waits_definition (r := r))
  | highlight => exact Action.waits_map_of_ends .highlights (Handler.waits_highlight (r := r))
  | linkedEditing =>
    exact Action.waits_map_of_ends .linkedRanges (Handler.waits_linkedEditing (r := r))
  | completion trigger =>
    exact Action.waits_map Answer.completion (Handler.waits_completion (r := r) trigger) carries_map
  | references =>
    exact Action.waits_map Answer.references (Handler.waits_references (r := r)) carries_map
  | rename => exact Action.waits_map_of_ends .rename (Handler.waits_rename (r := r))
  | onTypeFormatting _ options =>
    exact Action.waits_map_of_ends .edits (Handler.waits_onTypeFormatting (r := r) options)

/-- What is left of a request about a position that waits. -/
theorem Session.Reachable.waits {s : Session σ (Except RouterError Answer)} (h : s.Reachable c)
    {t : Thread σ (Except RouterError Answer)} (ht : t ∈ s.threads) {r : PositionRequest}
    (hr : t.program = (Request.position r).answer) {o : Op} {pending : o.Pending}
    {next : o.Result → Prog (Except RouterError Answer)}
    (hs : t.state = .blocked o pending next) :
    (o.prepares = true → Ends r.ask.nothing t.calls o next) ∧
      (o.asks = true → r.asking t.calls o next) := by
  refine h.rest_of_blocked ht (J := fun calls o next =>
    (o.prepares = true → Ends r.ask.nothing calls o next) ∧
      (o.asks = true → r.asking calls o next)) (fun m => ?_) hs
  have waits := Request.waits_answerPosition (c := c) (m := m) r
  unfold Action.Waits at waits
  rw [hr]
  exact waits

end PolyglotLsp
