import Mathlib.Data.List.Infix
import PolyglotLsp.Proofs.Completion.Origin
import PolyglotLsp.Proofs.Handler.Completion
import PolyglotLsp.Proofs.Replies
import PolyglotLsp.Proofs.Session.Once
import PolyglotLsp.Proofs.Session.Rest

/-!
# Items go back to the server they came from

Tagging keeps the server's own data, whatever it is (`untag_tag`). The items of a list are tagged
with the number under which the list's server has been remembered (`wp_completion_lists`). When such
an item is resolved while the server is registered and the cache has had room for the list, the
router sends one request, to that server, with the item as the server knows it
(`Session.sendsBack`).
-/

namespace PolyglotLsp

variable {σ : Type} {c : Collaborators σ} {I : List (Call σ) → Op → Prop}
  {calls : List (Call σ)} {m : Moment σ}

namespace Handler

/-! ## Tags -/

theorem untag_tag {id : Nat} (small : id < UInt64.size) {item : CompletionItem}
    (own : item.data ≠ some .null) : untag (tag id item).data = (some id, item.data) := by
  have number : (Json.nat id).asUInt64? = some id := if_pos small
  unfold tag
  cases hd : item.data with
  | none => exact congrArg (·, none) number
  | some data =>
    cases data with
    | null => exact absurd hd own
    | _ => exact congrArg (·, some _) number

/-! ## Lists and their numbers -/

end Handler

/-- The list with which servers have answered a call. -/
def Call.list? : Call σ → Option (Tagged CompletionList)
  | ⟨.askFirst .completionList _ _ _, _, _, .ok found⟩ => found
  | _ => none

theorem Call.list?_of_quiet {k : Call σ} (h : k.op.asks = false) : k.list? = none := by
  obtain ⟨o, asked, answered, r⟩ := k
  cases o with
  | askFirst => cases h
  | _ => rfl

namespace Handler

/-- The items of every list with which servers have answered are tagged with the number under which
the list's origin has been remembered. -/
def Lists (list : Option CompletionList) (calls : List (Call σ)) : Prop :=
  ∀ k ∈ calls, ∀ answer, k.list? = some answer →
    ∃ k' ∈ calls, ∃ id context, k'.remembered? = some (id, context) ∧
      context.server = answer.server ∧ ∃ l, list = some l ∧
        ∀ (i : Nat) (item : CompletionItem), answer.value.items[i]? = some item →
          ∃ own, l.items[i]? = some (tag id own) ∧ own.data = item.data

/-- Moving the edits of items leaves alone what has nothing to do with them. -/
theorem map_moveItems {β : Type} {field : CompletionItem → β}
    (apart : ∀ item edit text, field { item with textEdit := edit, insertText := text } = field item)
    (items : List CompletionItem) (ranges : List (Option Range)) :
    (moveItems items ranges).map field = items.map field := by
  induction items generalizing ranges with
  | nil => rfl
  | cons item rest ih =>
    unfold moveItems
    split
    · simp [ih]
    · next edit _ =>
      have own : field (moveItem item edit (ranges.take edit.ranges.length)) = field item := by
        unfold moveItem
        split
        · exact apart item _ item.insertText
        · exact apart item _ _
      simp [ih, own]

theorem wp_remapPrimary_data (hI : Free I) (language : Language) (host : Url) (expected : Int)
    (items : List CompletionItem) :
    (remapPrimary language host expected items).wp c I
      (fun moved _ _ => moved.map (·.data) = items.map (·.data)) calls m := by
  unfold remapPrimary
  dsimp only
  split
  · simp
  · simp only [Action.wp_bind, Action.wp_pure]
    exact Action.wp_mono (Mapping.wp_mapRanges hI ..) fun _ _ _ _ _ =>
      map_moveItems (fun _ _ _ => rfl) ..

theorem wp_remapItemAdditional_data (hI : Free I) (language : Language) (host : Url)
    (expected : Int) (item : CompletionItem) :
    (remapItemAdditional language host expected item).wp c I
      (fun moved _ _ => moved.data = item.data) calls m := by
  unfold remapItemAdditional
  split
  · simp
  · simp only [remapAdditional, Action.wp_bind, Action.wp_pure]
    exact Action.wp_mono (Mapping.wp_remapEdits hI ..) fun _ _ _ _ _ => trivial

theorem wp_remapItems_data (hI : Free I) (language : Language) (host : Url) (expected : Int)
    (items : List CompletionItem) :
    (items.mapM (remapItemAdditional language host expected)).wp c I
      (fun moved _ _ => moved.map (·.data) = items.map (·.data)) calls m := by
  refine Action.wp_mapM (fun (done moved : List CompletionItem) _ _ =>
    moved.map (·.data) = done.map (·.data)) items rfl ?_
  intro done item rest moved calls' m' _ before
  refine Action.wp_mono (wp_remapItemAdditional_data hI ..) fun i _ _ _ own => ?_
  simp [before, own]

theorem getElem?_map_tag {items given : List CompletionItem}
    (same : items.map (·.data) = given.map (·.data)) (id : Nat) {i : Nat} {item : CompletionItem}
    (h : given[i]? = some item) :
    ∃ own, (items.map (tag id))[i]? = some (tag id own) ∧ own.data = item.data := by
  have data : (items.map (·.data))[i]? = some item.data := by
    rw [same, List.getElem?_map, h]
    rfl
  rw [List.getElem?_map] at data
  obtain ⟨own, found, hd⟩ := Option.map_eq_some_iff.1 data
  exact ⟨own, by rw [List.getElem?_map, found]; rfl, hd⟩

/-- A rule that allows everything but asking servers. -/
def Unasking (_ : List (Call σ)) (o : Op) : Prop := True ∧ o.asks = false

theorem free_unasking : Free (Unasking (σ := σ)) := fun _ _ asks _ _ => ⟨trivial, asks⟩

theorem wp_of_unasking {α : Type} {x : Action α} {Q : Post σ α}
    (h : x.wp c Unasking Q calls m) :
    x.wp c (fun _ _ => True) (fun a calls' m' => Q a calls' m' ∧
      ∃ more, calls' = calls ++ more ∧ ∀ k ∈ more, k.op.asks = false) calls m :=
  Action.wp_ops h

theorem list?_append {found : Option (Tagged CompletionList)} {more : List (Call σ)}
    (h : ∀ k ∈ calls, ∀ answer, k.list? = some answer → found = some answer)
    (quiet : ∀ k ∈ more, k.op.asks = false) :
    ∀ k ∈ calls ++ more, ∀ answer, k.list? = some answer → found = some answer := by
  intro k hk answer ha
  rcases List.mem_append.1 hk with hk | hk
  · exact h k hk answer ha
  · rw [Call.list?_of_quiet (quiet k hk)] at ha
    cases ha

theorem Lists.append {list : Option CompletionList} {more : List (Call σ)}
    (h : Lists list calls) (quiet : ∀ k ∈ more, k.op.asks = false)
    (items : List CompletionItem) : Lists (extend list items) (calls ++ more) := by
  intro k hk answer ha
  have earlier : k ∈ calls := by
    rcases List.mem_append.1 hk with hk | hk
    · exact hk
    · rw [Call.list?_of_quiet (quiet k hk)] at ha
      cases ha
  obtain ⟨k', hk', id, context, remembered, server, l, rfl, tagged⟩ := h k earlier answer ha
  refine ⟨k', List.mem_append_left _ hk', id, context, remembered, server, ?_⟩
  unfold extend
  split
  · exact ⟨l, rfl, tagged⟩
  · refine ⟨_, rfl, fun i item hi => ?_⟩
    obtain ⟨own, found, data⟩ := tagged i item hi
    exact ⟨own, List.getElem?_append_left (List.getElem?_eq_some_iff.1 found).1 ▸ found, data⟩

theorem wp_serverList_lists (p : Projection) (r : PositionRequest)
    (quiet : ∀ k ∈ calls, k.op.asks = false) :
    (serverList p r).wp c (fun _ _ => True) (fun list calls' _ => Lists list calls') calls m := by
  simp only [serverList, Action.wp_bind]
  refine p.wp_forward .completionList r trivial fun answered found => ?_
  have only : ∀ k ∈ calls ++ [(⟨.askFirst .completionList r.ask.method p.contentTypes
      (.ok (r.movedTo p.uri p.position).toJson), m, answered, .ok found⟩ : Call σ)],
      ∀ answer, k.list? = some answer → found = some answer := by
    intro k hk answer ha
    rcases List.mem_append.1 hk with hk | hk
    · rw [Call.list?_of_quiet (quiet k hk)] at ha
      cases ha
    · rw [List.mem_singleton.1 hk] at ha
      exact ha
  rcases found with _ | answer
  · simp only [Action.wp_pure]
    intro k hk answer ha
    cases only k hk answer ha
  simp only [Action.wp_bind, Action.wp_pure]
  refine Action.wp_mono (wp_of_unasking (wp_remapPrimary_data free_unasking ..)) ?_
  rintro moved _ m₁ - ⟨data, more, rfl, quiet₁⟩
  refine Action.wp_mono (wp_of_unasking (wp_remapItems_data free_unasking ..)) ?_
  rintro items _ m₂ - ⟨data', more', rfl, quiet₂⟩
  refine Action.wp_call trivial fun m₃ id _ => ?_
  intro k hk answer' ha
  have quiet₃ : ∀ k ∈ [(⟨.remember ⟨p.host.url, p.url, p.language, answer.server⟩, m₂, m₃, id⟩ :
      Call σ)], k.op.asks = false := by simp [Op.asks]
  cases list?_append (list?_append (list?_append only quiet₁) quiet₂) quiet₃ k hk answer' ha
  exact ⟨_, List.mem_append_right _ List.mem_cons_self, id, _, rfl, rfl, _, rfl,
    fun i item hi => getElem?_map_tag (data'.trans data) id hi⟩

theorem lists_of_quiet {list : Option CompletionList} (quiet : ∀ k ∈ calls, k.op.asks = false) :
    Lists list calls := by
  intro k hk answer ha
  rw [Call.list?_of_quiet (quiet k hk)] at ha
  cases ha

theorem wp_completion_lists (r : PositionRequest) (trigger : Option CompletionTrigger) :
    (completion r trigger).wp c (fun _ _ => True) (fun list calls' _ => Lists list calls')
      [] m := by
  simp only [completion, Action.wp_bind]
  refine Action.wp_mono (wp_of_unasking (Projection.wp_resolve r.place
    fun _ _ asks _ _ => ⟨trivial, asks⟩)) ?_
  rintro found _ m₁ - ⟨-, more, rfl, quiet⟩
  rcases found with _ | p
  · simpa using lists_of_quiet quiet
  dsimp only
  split
  · simpa using lists_of_quiet quiet
  simp only [Action.wp_bind]
  refine Action.wp_mono (wp_serverList_lists p _ quiet) fun list calls₂ m₂ _ lists => ?_
  split
  · simp only [Action.wp_bind, Action.wp_pure]
    refine Action.wp_mono (wp_of_unasking (wp_tagHelperItems free_unasking p)) ?_
    rintro items _ m₃ - ⟨-, more', rfl, quiet'⟩
    exact lists.append quiet' items
  · simpa using lists

/-! ## Resolving -/

theorem wp_remapChanged (hI : Free I) (context : CompletionContext)
    (sent resolved : CompletionItem) :
    (remapChanged context sent resolved).wp c I (fun _ _ _ => True) calls m := by
  unfold remapChanged
  dsimp only
  split
  · simp only [Action.wp_bind]
    refine Action.wp_call (hI _ _ rfl rfl (List.forall_mem_nil _)) fun m₁ version _ => ?_
    rcases version with _ | expected
    · simp
    have additional (item : CompletionItem) (calls : List (Call σ)) (m : Moment σ) :
        (if resolved.additionalTextEdits ≠ sent.additionalTextEdits then
          remapItemAdditional context.language context.host expected item
        else pure item).wp c I (fun _ _ _ => True) calls m := by
      split
      · exact Action.wp_mono (wp_remapItemAdditional_data hI ..) fun _ _ _ _ _ => trivial
      · simp
    dsimp only
    split
    · simp only [Action.wp_bind, Action.wp_pure]
      exact Action.wp_mono (wp_remapPrimary_data hI ..) fun _ _ _ _ _ => additional _ _ _
    · simp only [Action.wp_bind, Action.wp_pure]
      exact additional _ _ _
  · simp

/-- What is left of resolving once the server has answered. -/
def settle (id : Nat) (context : CompletionContext) (item : CompletionItem)
    (outcome : Except RouterError (Option CompletionItem)) : Action CompletionItem :=
  match outcome with
  | .error (.serverNotFound _) => pure (tag id item)
  | .error e => throw e
  | .ok none => pure (tag id item)
  | .ok (some resolved) => do
    let resolved ← remapChanged context item (fillEdits item resolved)
    pure (tag id resolved)

theorem resolve_tag {id : Nat} (small : id < UInt64.size) {item : CompletionItem}
    (own : item.data ≠ some .null) :
    resolve (tag id item) = (do
      match ← Action.call (.recall id) with
      | none => pure item
      | some context => do
        let outcome ← Action.call
          (.ask .completionItem "completionItem/resolve" context.server (.ok item.toJson))
        settle id context item outcome) := by
  unfold resolve
  rw [untag_tag small own]
  refine bind_congr fun found => ?_
  rcases found with _ | context
  · rfl
  refine bind_congr fun outcome => ?_
  rcases outcome with e | (_ | resolved)
  · cases e <;> rfl
  · rfl
  · rfl

variable {id : Nat} {x : CompletionItem}

/-- Resolving a tagged item asks servers once, and a reply that has been asked for is tagged again.
-/
theorem wp_answer_resolve (small : id < UInt64.size) (own : x.data ≠ some .null) :
    (Request.resolve (tag id x)).answer.wp c AsksOnce (fun reply calls _ =>
      (∃ k ∈ calls, k.op.asks = true) → ∃ y, reply = .item (tag id y)) [] m := by
  rw [Request.answer, Action.wp_map, resolve_tag small own]
  simp only [Action.wp_bind]
  refine Action.wp_call (free_asksOnce _ _ rfl rfl (List.forall_mem_nil _)) fun m₁ found _ => ?_
  rcases found with _ | context
  · simp [Op.asks]
  simp only [Action.wp_bind]
  refine Action.wp_call (by simp [AsksOnce, Op.asks]) fun m₂ outcome _ => ?_
  rcases outcome with e | (_ | resolved)
  · cases e <;> simp [settle]
  · simp [settle]
  · simp only [settle, Action.wp_bind, Action.wp_pure]
    exact Action.wp_mono (wp_remapChanged free_asksOnce ..) fun y _ _ _ _ _ => ⟨y, rfl⟩

/-- What is left of resolving once the origin of the item's list is known. -/
def askOrigin (id : Nat) (context : CompletionContext) (x : CompletionItem) :
    Prog (Except RouterError Answer) :=
  .op (.ask .completionItem "completionItem/resolve" context.server (.ok x.toJson)) fun outcome =>
    (Answer.item <$> settle id context x outcome : Action Answer).run

/-- A tagged item is resolved by the server of its origin. -/
theorem answer_resolve_eq (small : id < UInt64.size) (own : x.data ≠ some .null) :
    (Request.resolve (tag id x)).answer = .op (.recall id) fun found =>
      match found with
      | none => .done (.ok (.item x))
      | some context => askOrigin id context x := by
  rw [Request.answer, resolve_tag small own]
  refine congrArg (Prog.op _) (funext fun found => ?_)
  rcases found with _ | context
  · rfl
  · rfl

end Handler

open Handler

/-- After its next turn, the request at a place has sent one request, by which a server is asked to
resolve an item. It sends nothing more, whatever happens, and a reply that is no failure is tagged
with the number. -/
def Session.SendsBack (c : Collaborators σ) (s : Session σ (Except RouterError Answer))
    (place : Nat) (t : Thread σ (Except RouterError Answer)) (server : String) (id : Nat)
    (x : CompletionItem) : Prop :=
  (∃ t', (s.step c (.polled place)).threads[place]? = some t' ∧ t'.id = t.id) ∧
    ∀ events, ∀ t' ∈ ((s.step c (.polled place)).play c events).threads, t'.id = t.id →
      (t'.sent.map fun y => (y.server, y.method, y.params)) =
          [(server, "completionItem/resolve", x.toJson)] ∧
        ∀ reply, t'.reply? = some reply → ∃ y, reply = .item (tag id y)

theorem Thread.run_of_answered {α : Type} {t : Thread σ α} {w w' : World σ}
    {edits : List Store.Event} {o : Op} {r : o.Result} {next : o.Result → Prog α}
    (h : w.start c t.cancelled o = (w', .answered r)) :
    t.run c edits (.op o next) w =
      ((t.sends w w').answers ⟨o, ⟨w, edits⟩, ⟨w', edits⟩, r⟩).run c edits (next r) w' := by
  simp only [run, h]

/-- The first turn of a request that resolves a tagged item. -/
theorem Thread.turn_resolve {t : Thread σ (Except RouterError Answer)} {w : World σ}
    {edits : List Store.Event} {Q : Post σ (Except RouterError Answer)}
    (hw : w.core.store = Store.after edits) {id : Nat} (small : id < UInt64.size) {x : CompletionItem}
    (own : x.data ≠ some .null) (begun : t.state = .ready (Request.resolve (tag id x)).answer)
    (fresh : t.calls = []) (unsent : t.sent = []) (active : t.cancelled = false)
    {context : CompletionContext} (cached : w.core.cache.get? id = some context) {server : Server}
    (registered : w.core.registry.get? context.server = some server)
    (once : Prog.wp c AsksOnce (Request.resolve (tag id x)).answer Q [] ⟨w, edits⟩) :
    (t.turn c edits .own w).2.program = t.program ∧ (t.turn c edits .own w).2.HasAsked ∧
      ((t.turn c edits .own w).2.sent.map fun y => (y.server, y.method, y.params)) =
        [(server.name, "completionItem/resolve", x.toJson)] := by
  rw [answer_resolve_eq small own] at begun once
  have started : w.start c t.cancelled (.recall id) = (w, .answered (some context)) := by
    rw [← cached]
    rfl
  have genuine := World.start_answered (m := ⟨w, edits⟩) hw started
  have later := once.2 _ _ genuine
  let recalled : Call σ := ⟨.recall id, ⟨w, edits⟩, ⟨w, edits⟩, some context⟩
  have turn : t.turn c edits .own w =
      (t.answers recalled).run c edits (askOrigin id context x) w := by
    simp only [Thread.turn, begun]
    rw [run_of_answered started, sends_of_extends .rfl]
  have calls : (t.answers recalled).calls = [] ++ [recalled] := by rw [answers, fresh]
  obtain ⟨program, -, sent, asked⟩ := sent_run_ask (t := t.answers recalled) w hw active registered
    (calls ▸ later)
  rw [turn, askOrigin]
  refine ⟨program, asked, ?_⟩
  rw [sent, show (t.answers recalled).sent = [] from unsent]
  rfl

/-- A request that resolves a tagged item while its origin is known and the origin's server is
registered. -/
theorem Session.sendsBack {s : Session σ (Except RouterError Answer)} (h : s.Reachable c)
    {place : Nat} {t : Thread σ (Except RouterError Answer)} (ht : s.threads[place]? = some t)
    {id : Nat} (small : id < UInt64.size) {x : CompletionItem} (own : x.data ≠ some .null)
    (begun : t.state = .ready (Request.resolve (tag id x)).answer)
    (active : t.cancelled = false) {context : CompletionContext}
    (cached : s.cache.get? id = some context)
    (registered : (s.world.core.registry.get? context.server).isSome) :
    s.SendsBack c place t context.server id x := by
  have member : t ∈ s.threads := List.mem_of_getElem? ht
  have rule (m : Moment σ) := wp_answer_resolve (c := c) (m := m) small own
  have once (m : Moment σ) : Prog.wp c AsksOnce (Request.resolve (tag id x)).answer
      (fun e calls _ => ∀ reply, e = .ok reply →
        (∃ k ∈ calls, k.op.asks = true) → ∃ y, reply = .item (tag id y)) [] m := by
    have wp := rule m
    unfold Action.wp at wp
    exact wp
  obtain ⟨program, fresh, unsent⟩ : (Request.resolve (tag id x)).answer = t.program ∧
      t.calls = [] ∧ t.sent = [] := by
    have meets := h.meets member fun m _ => Prog.wp_trivial ..
    simp only [Thread.Meets, begun] at meets
    exact meets
  obtain ⟨server, hserver⟩ := Option.isSome_iff_exists.1 registered
  have name : context.server = server.name := h.oneEach.named _ (Table.mem_of_get? hserver)
  obtain ⟨same, asked, sent⟩ := Thread.turn_resolve h.lawful.1 small own begun fresh unsent active
    cached hserver (once _)
  rw [← name] at sent
  let t₀ := (t.turn c s.edits .own s.world).2
  have turned : (s.step c (.polled place)).threads[place]? = some t₀ := getElem?_polled ht
  have number : t₀.id = t.id := t.id_turn c s.edits .own s.world
  have reachable := h.step (.polled place)
  refine ⟨⟨t₀, turned, number⟩, fun events t' ht' hid => ?_⟩
  -- from its first turn on, the request has asked, and is followed by its number
  have settles := (settles_of_hasAsked reachable (List.mem_of_getElem? turned) asked).play
    reachable (fun m _ => same ▸ program ▸ once m) events
  have settled := settles.settled t' ht' (hid.trans number.symm)
  refine ⟨settled.sent ▸ sent, fun reply hr => ?_⟩
  obtain ⟨_, tagged⟩ := (reachable.play events).finished ht'
    (settled.program.trans (same.trans program.symm)) (fun m _ => rule m) hr
  refine tagged (settled.asked.resolve_right ?_)
  rintro ⟨o, pending, next, blocked, -⟩
  simp only [Thread.reply?, blocked] at hr
  cases hr

/-- The items of a list go back to the server that has answered with it. An item that was given to
the editor is one of the server's with its own data and a tag. While there has been room for the
list and the server is registered, a request to resolve the item, or any other with the same tag, is
sent to that server, once, with the data under the tag; and its reply has the same tag. -/
theorem resolved_by_origin (c : Collaborators σ) (outside : σ)
    {before : List (Session.Event σ (Except RouterError Answer))}
    {t : Thread σ (Except RouterError Answer)}
    (ht : t ∈ ((Session.new outside).play c before).threads) {r : PositionRequest}
    {trigger : Option CompletionTrigger} (completes : r.ask = .completion trigger)
    (program : t.program = (Request.position r).answer) {list : CompletionList}
    (replied : t.reply? = some (.completion (some list))) {k : Call σ} (hk : k ∈ t.calls)
    {answer : Tagged CompletionList} (answered : k.list? = some answer) {i : Nat}
    {item item' : CompletionItem} (offered : answer.value.items[i]? = some item)
    (given : list.items[i]? = some item') :
    ∃ id own, item' = tag id own ∧ own.data = item.data ∧
      ∀ after s, s = (Session.new outside).play c (before ++ after) →
        (Session.new outside).Unevicted c id (before ++ after) → s.cache.nextId ≤ UInt64.size →
        ∀ (x : CompletionItem) place t', x.data ≠ some .null → s.threads[place]? = some t' →
          t'.state = .ready (Request.resolve (tag id x)).answer → t'.cancelled = false →
          (s.world.core.registry.get? answer.server).isSome →
          s.SendsBack c place t' answer.server id x := by
  have reachable : ((Session.new outside).play c before).Reachable c :=
    (Session.Reachable.new outside).play before
  have wp (m : Moment σ) : (Request.position r).answer.wp c (fun _ _ => True)
      (fun reply calls _ => ∀ list, reply = .completion list → Lists list calls) [] m := by
    rw [Request.answer, Request.answerPosition, completes, Action.wp_map]
    refine Action.wp_mono (wp_completion_lists r trigger) fun list calls _ _ lists => ?_
    rintro _ ⟨⟩
    exact lists
  obtain ⟨_, lists⟩ := reachable.finished ht program (fun m _ => wp m) replied
  obtain ⟨k', hk', id, context, remembered, server, _, ⟨⟩, tagged⟩ :=
    lists _ rfl k hk answer answered
  obtain ⟨own, found, data⟩ := tagged i item offered
  rw [given] at found
  cases found
  refine ⟨id, own, rfl, data, ?_⟩
  rintro after s rfl unevicted few x place t' hx ht' begun active known
  obtain ⟨ordered, entry⟩ := Session.mem_entries_play outside ht hk' remembered unevicted
  have small : id < UInt64.size := Nat.lt_of_lt_of_le (ordered.used _ entry) few
  rw [← server] at known ⊢
  exact Session.sendsBack ((Session.Reachable.new outside).play _) ht' small hx begun active
    (ContextCache.get?_of_mem ordered entry) known

/-! ## A list of the sample -/

open Scenario Scenario.Sample

namespace Scenario.Sample

/-- Data of a server's own that looks as if it were tagged. -/
def ownData : Json := .obj [(listKey, .nat 7)]

/-- A completion is answered with one item. -/
def completing : List (Session.Event Script (Except RouterError Answer)) :=
  [.changed (.registered server), .changed (.stored (.opened hostUrl 1 "@word")),
    .changed (.regenerated (regeneration 1)), .spawned false (request (.completion none)).answer,
    .polled 0, .released 0 server.name, .clock 5, .polled 0]

/-- The server of code has one item, and takes its time. -/
def offering : Script :=
  script (some 1) (slowly "textDocument/completion"
    (.arr [.obj [("label", .str "word"), ("data", ownData)]]))

def completed : Session Script (Except RouterError Answer) :=
  (Session.new offering).play Script.collaborators completing

/-- The items of a reply. -/
def itemsOf : Answer → List CompletionItem
  | .completion (some list) => list.items
  | _ => []

/-- The item that the editor gets. -/
def returned : CompletionItem :=
  ((completed.threads.filterMap (·.reply?)).flatMap itemsOf).headD default

/-- The editor sends the item back. -/
def resolving : List (Session.Event Script (Except RouterError Answer)) :=
  completing ++ [.spawned false (Request.resolve returned).answer]

/-- The number in an item's data, whoever has put it there. -/
def numberIn (item : CompletionItem) : Option Nat :=
  item.data.bind fun data => (data.get listKey).asNat?

/-- What is on record of the completion: the labels in its reply, and the server's list. -/
theorem record_completed :
    completed.threads.map (fun t => (t.reply?.map fun reply => (itemsOf reply).map (·.label),
      t.calls.filterMap fun k => k.list?.map fun answer =>
        (answer.server, answer.value.items.map numberIn))) =
    [(some ["word"], [("code", [some 7])])] := by decide +kernel

/-- The reply is a list of one item, the one that is sent back, and so is the server's list; the
data of its item has a number of its own. -/
theorem exists_listed :
    ∃ t ∈ completed.threads, ∃ list, t.reply? = some (.completion (some list)) ∧
      list.items = [returned] ∧ ∃ k ∈ t.calls, ∃ answer item, k.list? = some answer ∧
        answer.server = "code" ∧ answer.value.items = [item] ∧ numberIn item = some 7 := by
  have record := record_completed
  obtain ⟨t, only⟩ : ∃ t, completed.threads = [t] := by
    have one := congrArg List.length record
    rw [List.length_map] at one
    exact List.length_eq_one_iff.1 one
  simp only [only, List.map_cons, List.map_nil, List.cons.injEq, Prod.mk.injEq, and_true] at record
  obtain ⟨⟨reply, replied, labels⟩, listed⟩ := record.imp_left Option.map_eq_some_iff.1
  obtain ⟨list, rfl⟩ : ∃ list, reply = .completion (some list) := by
    cases reply with
    | completion found =>
      cases found with
      | none => cases labels
      | some list => exact ⟨list, rfl⟩
    | _ => cases labels
  obtain ⟨item', items, -⟩ := List.map_eq_singleton_iff.1 labels
  have same : returned = item' := by
    rw [returned, only]
    simp [replied, items]
  obtain ⟨k, hk, found⟩ := List.mem_filterMap.1 (listed ▸ List.mem_singleton_self _)
  obtain ⟨answer, answered, offer⟩ := Option.map_eq_some_iff.1 found
  obtain ⟨code, numbers⟩ := Prod.mk.inj offer
  obtain ⟨item, offered, number⟩ := List.map_eq_singleton_iff.1 numbers
  exact ⟨t, only ▸ List.mem_singleton_self t, list, replied, same ▸ items, k, hk, answer, item,
    answered, code, offered, number⟩

theorem program_completed {t : Thread Script (Except RouterError Answer)}
    (ht : t ∈ completed.threads) : t.program = (request (.completion none)).answer :=
  List.mem_singleton.1 (Session.program_mem_begun ht)

/-- The session in which the item is about to be resolved. -/
def resolved : Session Script (Except RouterError Answer) :=
  (Session.new offering).play Script.collaborators resolving

theorem exists_begun :
    ∃ t, resolved.threads[1]? = some t ∧ t.state = .ready (Request.resolve returned).answer ∧
      t.cancelled = false := by
  have one : completed.threads.length = 1 := by decide +kernel
  rw [resolved, resolving, Session.play_append]
  exact ⟨_, Session.getElem?_spawn one false _, rfl, rfl⟩

theorem unevicted_resolving (id : Nat) :
    (Session.new offering).Unevicted Script.collaborators id resolving := by
  have room : ∀ es ∈ resolving.inits,
      ((Session.new offering).play Script.collaborators es).cache.nextId ≤
        ((Session.new offering).play Script.collaborators es).cache.capacity := by decide +kernel
  intro es hes
  exact (room es ((List.mem_inits ..).2 hes)).trans (Nat.le_add_left ..)

end Scenario.Sample

theorem resolved_by_origin_returned :
    ∃ id own, returned = tag id own ∧ numberIn own = some 7 ∧
      ∃ t, resolved.threads[1]? = some t ∧
        t.state = .ready (Request.resolve returned).answer ∧
        resolved.SendsBack Script.collaborators 1 t "code" id own := by
  obtain ⟨t, ht, list, replied, items, k, hk, answer, item, answered, code, offered, number⟩ :=
    exists_listed
  obtain ⟨id, own, tagged, data, back⟩ := resolved_by_origin Script.collaborators offering ht rfl
    (program_completed ht) replied hk answered (i := 0) (by rw [offered]; rfl)
    (by rw [items]; rfl)
  have seven : numberIn own = some 7 := by
    rw [numberIn, data]
    exact number
  have nonnull : own.data ≠ some .null := by
    intro null
    rw [numberIn, null] at seven
    cases seven
  obtain ⟨t', ht', begun, active⟩ := exists_begun
  have few : resolved.cache.nextId ≤ UInt64.size := by decide +kernel
  have known : (resolved.world.core.registry.get? "code").isSome := by decide +kernel
  refine ⟨id, own, tagged, seven, t', ht', begun, ?_⟩
  rw [← code] at known ⊢
  exact back _ _ rfl (unevicted_resolving id) few own 1 t' nonnull ht' (tagged ▸ begun) active known

end PolyglotLsp
