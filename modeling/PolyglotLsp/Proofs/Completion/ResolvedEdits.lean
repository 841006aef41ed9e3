import PolyglotLsp.Proofs.Completion.PrimaryEdits
import PolyglotLsp.Proofs.Completion.Resolve
import PolyglotLsp.Proofs.Session.Verdicts

/-!
# Edits of resolved items

An item that the editor sends back is in the host's coordinates, and what its server adds to it is
not. So an edit that the server leaves out or repeats is returned as it was sent, without a question
to the mapping service, and one that the server has changed has its ranges from an answer of the
mapping service for the version that the host had when the server's answer came
(`Handler.KeepsEdits`). A server that has nothing to say, is gone, or is not waited for any longer
changes nothing: the item is returned with its tag (`Handler.Settles`). If there is nothing to map,
a request is over as soon as it knows what the server says (`Handler.run_remapChanged`). All this is
put together in `resolve_keeps_edits`.
-/

namespace PolyglotLsp

variable {σ : Type} {c : Collaborators σ} {calls : List (Call σ)} {m : Moment σ}

/-- Whether an operation asks the mapping service about ranges. -/
def Op.mapsRanges : Op → Bool
  | .mapRanges .. => true
  | _ => false

/-- Whether an operation asks the mapping service about edits. -/
def Op.remapsEdits : Op → Bool
  | .remapEdits .. => true
  | _ => false

namespace Handler

/-- What the server says is nothing new: it is left out, or is what was sent. -/
def Repeats {α : Type} (found sent : Option α) : Prop := found = none ∨ found = sent

theorem repeats_iff {α : Type} {found sent : Option α} :
    Repeats found sent ↔ (found <|> sent) = sent := by
  cases found with
  | none => simp [Repeats]
  | some a => simp [Repeats]

/-- The server says nothing new about either edit, or the host is closed. -/
def NothingToMap (context : CompletionContext) (sent found : CompletionItem) (store : Store) :
    Prop :=
  Repeats found.textEdit sent.textEdit ∧
      Repeats found.additionalTextEdits sent.additionalTextEdits ∨
    store.hostVersion? context.host = none

theorem NothingToMap.closed {context : CompletionContext} {sent found : CompletionItem}
    {store : Store} (h : NothingToMap context sent found store)
    (changed : (fillEdits sent found).textEdit ≠ sent.textEdit ∨
      (fillEdits sent found).additionalTextEdits ≠ sent.additionalTextEdits) :
    store.hostVersion? context.host = none := by
  refine h.resolve_left fun ⟨edit, additional⟩ => ?_
  rcases changed with changed | changed
  · exact changed (repeats_iff.1 edit)
  · exact changed (repeats_iff.1 additional)

/-- How the edits of a reply stand to those of the item that was sent and to the server's answer,
which came at this moment. -/
structure KeepsEdits (context : CompletionContext) (sent found : CompletionItem)
    (arrival : Moment σ) (calls : List (Call σ)) (reply : CompletionItem) : Prop where
  edit : Repeats found.textEdit sent.textEdit →
    reply.textEdit = sent.textEdit ∧ ∀ k ∈ calls, k.op.mapsRanges = false
  additional : Repeats found.additionalTextEdits sent.additionalTextEdits →
    reply.additionalTextEdits = sent.additionalTextEdits ∧ ∀ k ∈ calls, k.op.remapsEdits = false
  ranges : ∀ edit, reply.textEdit = some edit → sent.textEdit ≠ some edit →
    ∃ version, arrival.store.hostVersion? context.host = some version ∧
      ∀ r ∈ edit.ranges, ∃ k ∈ calls, r ∈ k.rangesAt context.host version
  additionalRanges : ∀ edits, reply.additionalTextEdits = some edits →
    sent.additionalTextEdits ≠ some edits →
    ∃ version, arrival.store.hostVersion? context.host = some version ∧
      ∀ e ∈ edits, ∃ k ∈ calls, e.range ∈ k.rangesAt context.host version
  closed : arrival.store.hostVersion? context.host = none →
    reply.textEdit = sent.textEdit ∧ reply.additionalTextEdits = sent.additionalTextEdits

theorem KeepsEdits.of_sent {context : CompletionContext} {sent found reply : CompletionItem}
    {arrival : Moment σ} (edit : reply.textEdit = sent.textEdit)
    (additional : reply.additionalTextEdits = sent.additionalTextEdits)
    (unasked : ∀ k ∈ calls, k.op.mapsRanges = false ∧ k.op.remapsEdits = false) :
    KeepsEdits context sent found arrival calls reply where
  edit _ := ⟨edit, fun k hk => (unasked k hk).1⟩
  additional _ := ⟨additional, fun k hk => (unasked k hk).2⟩
  ranges _ given new := absurd (edit.symm.trans given) new
  additionalRanges _ given new := absurd (additional.symm.trans given) new
  closed _ := ⟨edit, additional⟩

/-- A tag does not matter to the edits of the item that was sent. -/
theorem KeepsEdits.tagged {context : CompletionContext} {x found reply : CompletionItem}
    {arrival : Moment σ} (h : KeepsEdits context x found arrival calls reply) (id : Nat) :
    KeepsEdits context (tag id x) found arrival calls reply :=
  ⟨h.edit, h.additional, h.ranges, h.additionalRanges, h.closed⟩

/-! ## Taking one of the edits back -/

/-- The items' own edits are a matter of ranges, and the additional ones stay. -/
theorem wp_remapPrimary_additional (language : Language) (host : Url) (expected : Int)
    (items : List CompletionItem) :
    (remapPrimary language host expected items).wp c
      (fun _ o => o.remapsEdits = false) (fun moved _ _ =>
        moved.map (·.additionalTextEdits) = items.map (·.additionalTextEdits)) calls m := by
  unfold Action.wp
  rw [remapPrimary_eq]
  split
  · rintro _ ⟨⟩
    rfl
  · refine ⟨rfl, fun answered r _ => ?_⟩
    rcases r with _ | e | _ | a
    · rintro _ ⟨⟩
      exact map_moveItems (fun _ _ _ => rfl) ..
    · exact nofun
    · rintro _ ⟨⟩
      exact map_moveItems (fun _ _ _ => rfl) ..
    · refine ⟨rfl, fun answered' version _ => ?_⟩
      rintro _ ⟨⟩
      exact map_moveItems (fun _ _ _ => rfl) ..

theorem wp_remapItemAdditional_ops (language : Language) (host : Url) (expected : Int)
    (item : CompletionItem) :
    (remapItemAdditional language host expected item).wp c
      (fun _ o => o.mapsRanges = false) (fun _ _ _ => True) calls m := by
  unfold remapItemAdditional
  split
  · simp
  · simp only [remapAdditional, Mapping.remapEdits, Action.wp_bind, Action.wp_pure]
    split
    · simp
    · simp only [Action.wp_bind]
      refine Action.wp_call rfl fun m₁ r _ => ?_
      rcases r with _ | answer
      · simp
      simp only [Action.wp_bind, Action.wp_ofExcept]
      rintro (_ | a) -
      · simp
      simp only [Mapping.isCurrent, Action.wp_bind, Action.wp_pure]
      refine Action.wp_call rfl fun m₂ version _ => ?_
      split <;> simp

/-- Taking an item's own edit back to the host. -/
theorem wp_ownEdit (language : Language) (host : Url) (expected : Int) (item : CompletionItem) :
    (remapPrimary language host expected [item]).wp c (fun _ _ => True) (fun items calls' _ =>
      ((items.headD item).additionalTextEdits = item.additionalTextEdits ∧
        ∀ edit, (items.headD item).textEdit = some edit → ∀ r ∈ edit.ranges,
          ∃ k ∈ calls', r ∈ k.rangesAt host expected) ∧
      ∃ more, calls' = calls ++ more ∧ ∀ k ∈ more, k.op.remapsEdits = false) calls m := by
  have free : Free fun (_ : List (Call σ)) _ => True := fun _ _ _ _ _ => trivial
  refine Action.wp_mono (Action.wp_ops (J := (·.remapsEdits = false))
    (Action.wp_and (wp_remapPrimary free ..) (wp_remapPrimary_additional ..))) ?_
  rintro items calls' _ - ⟨⟨mapped, additional⟩, more⟩
  obtain ⟨i, rfl, same⟩ := List.map_eq_singleton_iff.1 additional
  exact ⟨⟨same, mapped i List.mem_cons_self⟩, more⟩

/-- Taking an item's additional edits back to the host. -/
theorem wp_additionalEdits (language : Language) (host : Url) (expected : Int)
    (item : CompletionItem) :
    (remapItemAdditional language host expected item).wp c (fun _ _ => True)
      (fun moved calls' _ =>
        (moved.textEdit = item.textEdit ∧ ∀ edits, moved.additionalTextEdits = some edits →
          ∀ e ∈ edits, ∃ k ∈ calls', e.range ∈ k.rangesAt host expected) ∧
        ∃ more, calls' = calls ++ more ∧ ∀ k ∈ more, k.op.mapsRanges = false) calls m := by
  have free : Free fun (_ : List (Call σ)) _ => True := fun _ _ _ _ _ => trivial
  refine Action.wp_mono (Action.wp_ops (J := (·.mapsRanges = false))
    (Action.wp_and (wp_remapItemAdditional free ..) (wp_remapItemAdditional_ops ..))) ?_
  rintro moved calls' _ - ⟨⟨mapped, -⟩, more⟩
  exact ⟨mapped, more⟩

/-! ## Both edits -/

/-- What has become of the item after its own edit has been taken care of: if it is as it was sent,
nobody has been asked about ranges. -/
structure OwnEdit (host : Url) (expected : Int) (sent resolved item : CompletionItem)
    (calls : List (Call σ)) : Prop where
  additional : item.additionalTextEdits = resolved.additionalTextEdits
  quiet : ∀ k ∈ calls, k.op.remapsEdits = false
  kept : resolved.textEdit = sent.textEdit →
    item.textEdit = sent.textEdit ∧ ∀ k ∈ calls, k.op.mapsRanges = false
  moved : resolved.textEdit ≠ sent.textEdit → ∀ edit, item.textEdit = some edit →
    ∀ r ∈ edit.ranges, ∃ k ∈ calls, r ∈ k.rangesAt host expected

/-- An edit that was not sent has come from the mapping service. -/
theorem OwnEdit.ranges {host : Url} {expected : Int} {sent resolved item : CompletionItem}
    (h : OwnEdit host expected sent resolved item calls) {edit : ItemEdit}
    (given : item.textEdit = some edit) (new : sent.textEdit ≠ some edit) :
    ∀ r ∈ edit.ranges, ∃ k ∈ calls, r ∈ k.rangesAt host expected := by
  refine h.moved (fun same => new ?_) edit given
  rw [← (h.kept same).1, given]

/-- An item whose own edit has been taken care of keeps its edits once its additional edits have
been. -/
theorem OwnEdit.wp_additional {context : CompletionContext} {expected : Int}
    {sent found item : CompletionItem} {arrival : Moment σ}
    (opened : arrival.store.hostVersion? context.host = some expected)
    (h : OwnEdit context.host expected sent (fillEdits sent found) item calls) :
    (if (fillEdits sent found).additionalTextEdits ≠ sent.additionalTextEdits then
      remapItemAdditional context.language context.host expected item
    else pure item).wp c (fun _ _ => True) (fun reply calls' _ =>
      KeepsEdits context sent found arrival calls' reply) calls m := by
  have still {α : Prop} (closed : arrival.store.hostVersion? context.host = none) : α := by
    rw [opened] at closed
    cases closed
  split
  · next changed =>
    refine Action.wp_mono (wp_additionalEdits ..) ?_
    rintro reply _ _ - ⟨⟨own, mapped⟩, more, rfl, asked⟩
    refine ⟨fun repeats => ?_, fun repeats => absurd (repeats_iff.1 repeats) changed,
      fun edit given new => ⟨expected, opened, fun r hr => ?_⟩,
      fun edits given _ => ⟨expected, opened, mapped edits given⟩, still⟩
    · obtain ⟨kept, quiet⟩ := h.kept (repeats_iff.1 repeats)
      exact ⟨own.trans kept, List.forall_mem_append.2 ⟨quiet, asked⟩⟩
    · obtain ⟨k, hk, mapped⟩ := h.ranges (own ▸ given) new r hr
      exact ⟨k, List.mem_append_left _ hk, mapped⟩
  · next unchanged =>
    have kept : item.additionalTextEdits = sent.additionalTextEdits :=
      h.additional.trans (not_not.1 unchanged)
    simp only [Action.wp_pure]
    exact ⟨fun repeats => h.kept (repeats_iff.1 repeats), fun _ => ⟨kept, h.quiet⟩,
      fun edit given new => ⟨expected, opened, h.ranges given new⟩,
      fun edits given new => absurd (kept.symm.trans given) new, still⟩

/-- The edits of a reply, after the server's answer at this moment. -/
theorem wp_remapChanged_keeps (context : CompletionContext) (sent found : CompletionItem)
    (unasked : ∀ k ∈ calls, k.op.mapsRanges = false ∧ k.op.remapsEdits = false) :
    (remapChanged context sent (fillEdits sent found)).wp c (fun _ _ => True)
      (fun reply calls' _ => KeepsEdits context sent found m calls' reply) calls m := by
  unfold remapChanged
  dsimp only
  split
  · simp only [Action.wp_bind]
    refine Action.wp_call trivial fun answered version genuine => ?_
    have read : answered = m ∧ version = m.store.hostVersion? context.host := genuine.answers
    have unasked' : ∀ k ∈ calls ++ [(⟨.hostVersion context.host, m, answered, version⟩ : Call σ)],
        k.op.mapsRanges = false ∧ k.op.remapsEdits = false := by
      exact List.forall_mem_append.2 ⟨unasked, List.forall_mem_singleton.2 ⟨rfl, rfl⟩⟩
    rcases version with _ | expected
    · simp only [Action.wp_pure]
      exact .of_sent rfl rfl unasked'
    · have opened := read.2.symm
      dsimp only
      split
      · next changed =>
        simp only [Action.wp_bind, Action.wp_pure]
        refine Action.wp_mono (wp_ownEdit ..) ?_
        rintro items _ m' - ⟨⟨additional, moved⟩, more, rfl, asked⟩
        refine OwnEdit.wp_additional opened ⟨additional, ?_, fun same => absurd same changed, ?_⟩
        · exact List.forall_mem_append.2 ⟨fun k hk => (unasked' k hk).2, asked⟩
        · exact fun _ => moved
      · next unchanged =>
        simp only [Action.wp_bind, Action.wp_pure]
        refine OwnEdit.wp_additional opened ⟨rfl, fun k hk => (unasked' k hk).2, ?_, ?_⟩
        · exact fun same => ⟨same, fun k hk => (unasked' k hk).1⟩
        · exact fun changed => absurd changed unchanged
  · next unchanged =>
    obtain ⟨same, sameAdditional⟩ := not_or.1 unchanged
    simp only [Action.wp_pure]
    exact .of_sent (not_not.1 same) (not_not.1 sameAdditional) unasked

/-- If there is nothing to map, a reply is sure to come. -/
theorem wp_remapChanged_returns (context : CompletionContext) (sent found : CompletionItem) :
    Prog.wp c (fun _ _ => True) (remapChanged context sent (fillEdits sent found)).run
      (fun final _ _ => NothingToMap context sent found m.store → ∃ reply, final = .ok reply)
      calls m := by
  unfold remapChanged
  dsimp only
  split
  · next changed =>
    refine ⟨trivial, fun answered version genuine => ?_⟩
    have read : answered = m ∧ version = m.store.hostVersion? context.host := genuine.answers
    rcases version with _ | expected
    · exact fun _ => ⟨_, rfl⟩
    · refine Prog.wp_mono (Prog.wp_trivial ..) fun _ _ _ _ _ plain => ?_
      rw [plain.closed changed] at read
      cases read.2
  · exact fun _ => ⟨_, rfl⟩

/-- Nor is anybody waited for. -/
theorem run_remapChanged {context : CompletionContext} {sent found : CompletionItem} {w : World σ}
    (plain : NothingToMap context sent found w.core.store) (cancelled : Bool) :
    ∃ reply, w.run c cancelled (remapChanged context sent (fillEdits sent found)).run =
      (w, .finished (.ok reply)) := by
  unfold remapChanged
  dsimp only
  split
  · next changed =>
    have read : w.run c cancelled (Action.call (.hostVersion context.host)).run =
        (w, .finished (.ok none)) := by
      rw [← plain.closed changed]
      rfl
    exact ⟨_, World.run_action_bind read _⟩
  · exact ⟨_, rfl⟩

/-! ## The end of a request -/

/-- How a request to resolve an item ends, given what the server has answered at a moment. -/
def Settles (id : Nat) (context : CompletionContext) (sent : CompletionItem) (arrival : Moment σ)
    (calls : List (Call σ)) (final : Except RouterError Answer) :
    Except RouterError (Option CompletionItem) → Prop
  | .ok (some found) =>
    (NothingToMap context sent found arrival.store → ∃ reply, final = .ok reply) ∧
      ∀ reply, final = .ok reply →
        ∃ item, reply = .item (tag id item) ∧ KeepsEdits context sent found arrival calls item
  | .ok none | .error (.serverNotFound _) => final = .ok (.item sent)
  | .error e => final = .error e

variable {id : Nat} {x : CompletionItem}

theorem item_settle_found (context : CompletionContext) (found : CompletionItem) :
    (Answer.item <$> settle id context x (.ok (some found)) : Action Answer) = (do
      let item ← remapChanged context x (fillEdits x found)
      pure (.item (tag id item))) := by
  simp only [settle, map_bind, map_pure]

theorem wp_settle (context : CompletionContext)
    (unasked : ∀ k ∈ calls, k.op.mapsRanges = false ∧ k.op.remapsEdits = false)
    (outcome : Except RouterError (Option CompletionItem)) :
    Prog.wp c (fun _ _ => True) (Answer.item <$> settle id context x outcome : Action Answer).run
      (fun final calls' _ => Settles id context (tag id x) m calls' final outcome) calls m := by
  rcases outcome with e | _ | found
  · cases e <;> rfl
  · rfl
  · have kept : (remapChanged context x (fillEdits x found)).wp c (fun _ _ => True)
        (fun reply calls' _ => KeepsEdits context x found m calls' reply) calls m :=
      wp_remapChanged_keeps context x found unasked
    unfold Action.wp at kept
    rw [item_settle_found]
    refine (Prog.wp_bind (remapChanged context x (fillEdits x found)).run
      (ExceptT.bindCont fun item => pure (Answer.item (tag id item))) _ _ _).2 ?_
    have both := Prog.wp_and (wp_remapChanged_returns context x found) kept
    simp only [and_self] at both
    refine Prog.wp_mono both ?_
    rintro (e | item) calls' _ - ⟨returns, keeps⟩
    · have failed : Settles id context (tag id x) m calls' (.error e) (.ok (some found)) := by
        refine ⟨fun sure => ?_, fun reply impossible => ?_⟩
        · obtain ⟨reply, impossible⟩ := returns sure
          cases impossible
        · cases impossible
      exact failed
    · have ended : Settles id context (tag id x) m calls' (.ok (.item (tag id item)))
          (.ok (some found)) := by
        refine ⟨fun _ => ⟨_, rfl⟩, ?_⟩
        rintro _ ⟨⟩
        exact ⟨item, rfl, (keeps item rfl).tagged id⟩
      exact ended

/-- The origin of the list with this number, as the first call has found it. -/
def originOf (id : Nat) (calls : List (Call σ)) : Option CompletionContext :=
  calls.head?.bind fun
    | ⟨.recall id', _, _, found⟩ => if id' = id then found else none
    | _ => none

theorem originOf_recall {asked answered : Moment σ} {found : Option CompletionContext}
    (later : List (Call σ)) :
    originOf id (⟨.recall id, asked, answered, found⟩ :: later) = found := by
  simp [originOf]

theorem wp_answer_resolve_settles (small : id < UInt64.size) (own : x.data ≠ some .null) :
    Prog.wp c (fun _ _ => True) (Request.resolve (tag id x)).answer (fun final calls' _ =>
      ∀ context, originOf id calls' = some context → ∃ asked answered outcome,
        ⟨.ask .completionItem "completionItem/resolve" context.server (.ok x.toJson), asked,
          answered, outcome⟩ ∈ calls' ∧
        Settles id context (tag id x) answered calls' final outcome) [] m := by
  rw [answer_resolve_eq small own]
  refine ⟨trivial, fun m₁ found _ => ?_⟩
  rcases found with _ | context
  · intro context recalled
    cases (originOf_recall []).symm.trans recalled
  · refine ⟨trivial, fun m₂ outcome _ => Prog.wp_mono (wp_settle context ?_ outcome) ?_⟩
    · refine List.forall_mem_append.2 ⟨?_, List.forall_mem_singleton.2 ⟨rfl, rfl⟩⟩
      exact List.forall_mem_singleton.2 ⟨rfl, rfl⟩
    · rintro final _ _ ⟨more, rfl⟩ settles _ recalled
      cases (originOf_recall _).symm.trans recalled
      exact ⟨m₁, m₂, outcome, by simp, settles⟩

/-- Every tag can be read as one around data that is not `null`. -/
theorem exists_own (id : Nat) (x : CompletionItem) :
    ∃ x', tag id x = tag id x' ∧ x'.data ≠ some .null := by
  by_cases null : x.data = some .null
  · refine ⟨{ x with data := none }, ?_, nofun⟩
    simp only [tag, null]
    rfl
  · exact ⟨x, rfl, null⟩

end Handler

open Handler

/-! ## Requests without an answer -/

/-- A server that is asked to resolve an item and says `null` has nothing to say, unless it is too
late. -/
def NullSaysNothing (c : Collaborators σ) (asked : Moment σ) (server : String) (params : Json)
    (outcome : Except RouterError (Option CompletionItem)) : Prop :=
  ∀ s, asked.world.core.registry.get? server = some s →
    let work := (c.request asked.world.outside s.endpoint "completionItem/resolve" params).2
    work.outcome = .answer .null → outcome = .ok none ∨
      asked.world.core.requestTimeout < work.duration ∧
        outcome = .error
          (.timeout s.name "completionItem/resolve" asked.world.core.requestTimeout)

theorem Call.Ran.nullSaysNothing {server : String} {params : Json} {asked answered : Moment σ}
    {outcome : Except RouterError (Option CompletionItem)}
    {requests : List (String × String × Json)}
    (h : (⟨.ask .completionItem "completionItem/resolve" server (.ok params), asked, answered,
      outcome⟩ : Call σ).Ran c requests) :
    NullSaysNothing c asked server params outcome := by
  intro s registered work null
  obtain ⟨turns, ended⟩ := h
  obtain ⟨reply, ends, rfl⟩ := World.reply_of_finished_ask registered (congrArg Prod.fst ended)
  rw [null] at ends
  cases ends with
  | answer said => exact absurd rfl said
  | null => exact .inl rfl
  | unreadable said => exact absurd rfl said
  | timeout late =>
    rcases late with hang | slow
    · cases hang
    · exact .inr ⟨slow, rfl⟩

variable {id : Nat} {x : CompletionItem}

/-- Nobody is asked if the server is gone or the request is cancelled. -/
theorem run_unasked (small : id < UInt64.size) (own : x.data ≠ some .null) {w : World σ}
    {cancelled : Bool} {context : CompletionContext} (cached : w.core.cache.get? id = some context)
    (given : w.core.registry.get? context.server = none ∨ cancelled = true) :
    (w.run c cancelled (Request.resolve (tag id x)).answer).2 =
      .finished (.ok (.item (tag id x))) := by
  rw [answer_resolve_eq small own]
  simp only [World.run, World.start, askOrigin, cached]
  cases registered : w.core.registry.get? context.server with
  | none => rfl
  | some s =>
    rw [registered] at given
    rcases given with gone | rfl
    · cases gone
    · rfl

theorem wp_settle_quiet (context : CompletionContext)
    (outcome : Except RouterError (Option CompletionItem)) :
    Prog.wp c (fun _ o => o.asks = false)
      (Answer.item <$> settle id context x outcome : Action Answer).run (fun _ _ _ => True) calls
      m := by
  have quiet : (Answer.item <$> settle id context x outcome : Action Answer).wp c
      (fun _ o => o.asks = false) (fun _ _ _ => True) calls m := by
    rw [Action.wp_map]
    rcases outcome with e | _ | found
    · cases e <;> simp [settle]
    · simp [settle]
    · simp only [settle, Action.wp_bind, Action.wp_pure]
      exact wp_remapChanged (fun _ _ asks _ _ => asks) ..
  unfold Action.wp at quiet
  exact Prog.wp_mono quiet fun _ _ _ _ _ => trivial

/-- A request that waits for the server has found the origin of the list, and this is left of it. -/
theorem rest_of_asking {s : Session σ (Except RouterError Answer)} (reachable : s.Reachable c)
    {t : Thread σ (Except RouterError Answer)} (ht : t ∈ s.threads) (small : id < UInt64.size)
    (own : x.data ≠ some .null) (program : t.program = (Request.resolve (tag id x)).answer) {o : Op}
    {pending : o.Pending} {next : o.Result → Prog (Except RouterError Answer)}
    (waits : t.state = .blocked o pending next) (asks : o.asks = true) :
    ∃ context, originOf id t.calls = some context ∧ Prog.op o next = askOrigin id context x := by
  refine reachable.rest_of_blocked ht (J := fun calls o next => o.asks = true →
    ∃ context, originOf id calls = some context ∧ Prog.op o next = askOrigin id context x)
    (fun m => ?_) waits asks
  rw [program, answer_resolve_eq small own]
  refine ⟨nofun, fun m₁ found _ => ?_⟩
  rcases found with _ | context
  · trivial
  · refine ⟨fun _ => ⟨context, originOf_recall [], rfl⟩, fun m₂ outcome _ => ?_⟩
    refine Prog.everywhere_of_wp (wp_settle_quiet context outcome) fun _ o _ quiet asks => ?_
    rw [quiet] at asks
    cases asks

/-- The request is over in the turn in which the outcome comes, if that leaves nothing to map. -/
theorem run_settle (context : CompletionContext) {w : World σ} (cancelled : Bool)
    (outcome : Except RouterError (Option CompletionItem))
    (plain : ∀ found, outcome = .ok (some found) → NothingToMap context x found w.core.store) :
    ∃ final, (w.run c cancelled
      (Answer.item <$> settle id context x outcome : Action Answer).run).2 = .finished final := by
  rcases outcome with e | _ | found
  · cases e <;> exact ⟨_, rfl⟩
  · exact ⟨_, rfl⟩
  · obtain ⟨reply, ended⟩ := run_remapChanged (c := c) (plain found rfl) cancelled
    refine ⟨.ok (.item (tag id reply)), ?_⟩
    rw [item_settle_found]
    exact congrArg Prod.snd (World.run_action_bind ended _)

namespace Session

/-- After its next turn, the request at a place has ended so. -/
def EndsWith (c : Collaborators σ) (s : Session σ (Except RouterError Answer)) (place : Nat)
    (final : Except RouterError Answer) : Prop :=
  ∃ t, (s.step c (.polled place)).threads[place]? = some t ∧ t.state = .finished final

variable {s : Session σ (Except RouterError Answer)} {place : Nat}
  {t : Thread σ (Except RouterError Answer)} (ht : s.threads[place]? = some t)
  (small : id < UInt64.size) (own : x.data ≠ some .null)
  (program : t.program = (Request.resolve (tag id x)).answer)

include ht small own program

theorem endsWith_of_unasked (begun : t.state = .ready t.program) {context : CompletionContext}
    (cached : s.world.core.cache.get? id = some context)
    (given : s.world.core.registry.get? context.server = none ∨ t.cancelled = true) :
    s.EndsWith c place (.ok (.item (tag id x))) := by
  refine ⟨_, getElem?_polled ht, ?_⟩
  have erased := congrArg Task.state (t.turn_erase c s.edits .own s.world).2
  rw [erased, begun, program]
  exact run_unasked small own cached given

variable (reachable : s.Reachable c)

include reachable

theorem endsWith_of_cancelled {o : Op} {pending : o.Pending}
    {next : o.Result → Prog (Except RouterError Answer)}
    (waits : t.state = .blocked o pending next) (asks : o.asks = true)
    (cancelled : t.cancelled = true) : s.EndsWith c place (.ok (.item (tag id x))) := by
  obtain ⟨context, -, rest⟩ :=
    rest_of_asking reachable (List.mem_of_getElem? ht) small own program waits asks
  cases rest
  have givesUp : s.world.resume t.cancelled (.ask .completionItem "completionItem/resolve"
      context.server (.ok x.toJson)) pending = (s.world, .answered (.ok none)) := by
    rw [cancelled]
    rfl
  exact exists_polled_of_answered ht waits givesUp

/-- The turn in which the outcome of asking the server comes. -/
theorem endsWith_of_answered {context : CompletionContext}
    (recalled : originOf id t.calls = some context) {server : String}
    {params : Except String Json}
    {pending : (Op.ask .completionItem "completionItem/resolve" server params).Pending}
    {next : Except RouterError (Option CompletionItem) → Prog (Except RouterError Answer)}
    (waits : t.state =
      .blocked (.ask .completionItem "completionItem/resolve" server params) pending next)
    {w : World σ} {outcome : Except RouterError (Option CompletionItem)}
    (arrives : s.world.resume t.cancelled
      (.ask .completionItem "completionItem/resolve" server params) pending =
        (w, .answered outcome))
    (plain : ∀ found, outcome = .ok (some found) →
      NothingToMap context (tag id x) found w.core.store) :
    ∃ final, s.EndsWith c place final := by
  obtain ⟨context', recalled', rest⟩ :=
    rest_of_asking reachable (List.mem_of_getElem? ht) small own program waits rfl
  cases recalled.symm.trans recalled'
  cases rest
  obtain ⟨t', ht', state⟩ := exists_polled_of_answered (c := c) ht waits arrives
  obtain ⟨final, ended⟩ : ∃ final, t'.state = .finished final :=
    state ▸ run_settle context t.cancelled outcome plain
  exact ⟨final, t', ht', ended⟩

end Session

/-- What becomes of a tagged item that is sent back while the origin of its list is known. A request
that has ended has asked the server, and the edits of its reply are those that were sent unless the
server has changed them (`Settles`). If the server is gone or the request is cancelled before the
server has answered, the item is returned as it was sent at the next turn. And the request is over
in the turn in which the server's answer comes unless there is something to map. -/
theorem resolve_keeps_edits {s : Session σ (Except RouterError Answer)} (reachable : s.Reachable c)
    {place : Nat} {t : Thread σ (Except RouterError Answer)} (ht : s.threads[place]? = some t)
    (small : id < UInt64.size) (program : t.program = (Request.resolve (tag id x)).answer) :
    (∀ final context, t.state = .finished final → originOf id t.calls = some context →
      ∃ params asked answered outcome,
        ⟨.ask .completionItem "completionItem/resolve" context.server (.ok params), asked, answered,
          outcome⟩ ∈ t.calls ∧
        Settles id context (tag id x) answered t.calls final outcome ∧
        (t.cancelled = false → NullSaysNothing c asked context.server params outcome)) ∧
    (∀ context, t.state = .ready t.program → s.world.core.cache.get? id = some context →
      s.world.core.registry.get? context.server = none ∨ t.cancelled = true →
      s.EndsWith c place (.ok (.item (tag id x)))) ∧
    (∀ o pending next, t.state = .blocked o pending next → o.asks = true → t.cancelled = true →
      s.EndsWith c place (.ok (.item (tag id x)))) ∧
    ∀ context server params pending next w outcome, originOf id t.calls = some context →
      t.state = .blocked (.ask .completionItem "completionItem/resolve" server params) pending
        next →
      s.world.resume t.cancelled (.ask .completionItem "completionItem/resolve" server params)
        pending = (w, .answered outcome) →
      (∀ found, outcome = .ok (some found) →
        NothingToMap context (tag id x) found w.core.store) →
      ∃ final, s.EndsWith c place final := by
  obtain ⟨x', same, own⟩ := exists_own id x
  rw [same] at program ⊢
  have mem := List.mem_of_getElem? ht
  refine ⟨fun final context ended recalled => ?_, fun context begun cached given => ?_,
    fun o pending next waits asks cancelled => ?_, ?_⟩
  · have meets := reachable.meets mem fun m _ => program ▸ wp_answer_resolve_settles small own
    obtain ⟨_, settles⟩ := meets.finished ended
    obtain ⟨asked, answered, outcome, hk, settled⟩ := settles context recalled
    refine ⟨_, asked, answered, outcome, hk, settled, fun uncancelled => ?_⟩
    obtain ⟨requests, ran⟩ := (reachable.logged mem uncancelled ended).ran hk
    exact ran.nullSaysNothing
  · exact Session.endsWith_of_unasked ht small own program begun cached given
  · exact Session.endsWith_of_cancelled ht small own program reachable waits asks cancelled
  · intro context server params pending next w outcome recalled waits arrives plain
    exact Session.endsWith_of_answered ht small own program reachable recalled waits arrives plain

/-! ## A revised item of the sample -/

open Scenario Scenario.Sample

namespace Scenario.Sample

/-- An item as the editor has it, with both kinds of edits. -/
def kept : CompletionItem :=
  { withEdit (.edit ⟨atLine 0, "word"⟩) with
    label := "word", additionalTextEdits := some [⟨atLine 4, "using"⟩] }

/-- The server has another edit for it, on the second line of code. -/
def revision : CompletionItem := { withEdit (.edit ⟨atLine 1, "words"⟩) with label := "word" }

/-- Code stands two lines further down in the host. -/
def reviser : Script :=
  let answers := slowly "textDocument/completion" (.arr [.obj [("label", .str "word")]]) ++
    slowly "completionItem/resolve" revision.toJson
  { script (some 1) answers with
    mapping := { (script (some 1) answers).mapping with shift := ⟨2, 0⟩ } }

/-- The item is about to be resolved. -/
def revising : Session Script (Except RouterError Answer) :=
  (Session.new reviser).play Script.collaborators
    (completing ++ [.spawned false (Request.resolve (tag 1 kept)).answer])

theorem exists_revising :
    ∃ t, revising.threads[1]? = some t ∧ t.state = .ready t.program ∧
      t.program = (Request.resolve (tag 1 kept)).answer := by
  have one : ((Session.new (α := Except RouterError Answer) reviser).play Script.collaborators
      completing).threads.length = 1 := by decide +kernel
  rw [revising, Session.play_append]
  exact ⟨_, Session.getElem?_spawn one false _, rfl, rfl⟩

/-- The server of code goes away before the request has its first turn. -/
def deserted : Session Script (Except RouterError Answer) :=
  revising.step Script.collaborators (.changed (.unregistered "code"))

/-- The server is asked, and has answered. -/
def revised : Session Script (Except RouterError Answer) :=
  revising.play Script.collaborators [.polled 1, .clock 10, .polled 1]

/-- The edits of an item that is a reply. -/
def editsOf : Answer → Option (Option ItemEdit × Option (List TextEdit))
  | .item item => some (item.textEdit, item.additionalTextEdits)
  | _ => none

theorem record_revised :
    revised.threads[1]?.map (fun t => (t.reply?.bind editsOf,
      (originOf 1 t.calls).map (·.host))) =
    some (some (some (.edit ⟨atLine 3, "words"⟩), some [⟨atLine 4, "using"⟩]), some hostUrl) := by
  decide +kernel

theorem exists_revised :
    ∃ t, revised.threads[1]? = some t ∧ t.program = (Request.resolve (tag 1 kept)).answer := by
  obtain ⟨t, ht, -, program⟩ := exists_revising
  let asked := revising.step Script.collaborators (.polled 1)
  let due := asked.step Script.collaborators (.clock 10)
  refine ⟨_, Session.getElem?_polled (s := due) (t := (t.turn Script.collaborators revising.edits
    .own revising.world).2) (Session.getElem?_polled ht), ?_⟩
  rw [Thread.program_turn, Thread.program_turn, program]

end Scenario.Sample

/-- The server's edit is moved, and the item keeps the additional one; without the server, it keeps
both. -/
theorem resolve_keeps_edits_revised :
    (∃ t item, revised.threads[1]? = some t ∧ t.state = .finished (.ok (.item (tag 1 item))) ∧
      item.textEdit = some (.edit ⟨atLine 3, "words"⟩) ∧
      item.additionalTextEdits = kept.additionalTextEdits ∧
      ∃ version, ∃ k ∈ t.calls, atLine 3 ∈ k.rangesAt hostUrl version) ∧
    deserted.EndsWith Script.collaborators 1 (.ok (.item (tag 1 kept))) := by
  have reachable : revising.Reachable Script.collaborators := (Session.Reachable.new _).play _
  constructor
  · obtain ⟨t, ht, program⟩ := exists_revised
    have record := record_revised
    rw [ht, Option.map_some, Option.some.injEq, Prod.mk.injEq] at record
    obtain ⟨replied, recalled⟩ := record
    obtain ⟨reply, ended, edits⟩ := Option.bind_eq_some_iff.1 replied
    obtain ⟨context, recalled, host⟩ := Option.map_eq_some_iff.1 recalled
    have state := Thread.finished_of_reply? ended
    obtain ⟨params, asked, answered, outcome, -, settles, -⟩ :=
      (resolve_keeps_edits (reachable.play _) ht (by decide) program).1 _ context state recalled
    rcases outcome with e | _ | found
    · cases e <;> cases settles
      cases edits
    · cases settles
      cases edits
    · obtain ⟨item, rfl, keeps⟩ := settles.2 reply rfl
      obtain ⟨edit, additional⟩ := Prod.mk.inj (Option.some.inj edits)
      obtain ⟨version, -, mapped⟩ := keeps.ranges _ edit (by decide)
      refine ⟨t, item, ht, state, edit, additional, version, ?_⟩
      rw [← host]
      exact mapped _ List.mem_cons_self
  · obtain ⟨t, ht, begun, program⟩ := exists_revising
    have origin : (deserted.world.core.cache.get? 1).map (·.server) = some "code" := by
      decide +kernel
    obtain ⟨context, cached, server⟩ := Option.map_eq_some_iff.1 origin
    have gone : deserted.world.core.registry.get? context.server = none := by
      rw [server]
      decide +kernel
    exact (resolve_keeps_edits (reachable.step _) ht (by decide) program).2.1 context begun cached
      (.inl gone)

end PolyglotLsp
