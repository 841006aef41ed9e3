import PolyglotLsp.Proofs.Handler.Completion
import PolyglotLsp.Proofs.Handler.Remapping
import PolyglotLsp.Proofs.Session.Rest
import PolyglotLsp.Proofs.Session.Turns

/-!
# Each item gets its own ranges

The edits of all items of a completion list are taken back to the host by one question, about all
their ranges in a row, and each item is handed its part of the answer. The items before it take away
as many answers as they have ranges, whether these are of use or not (`moveItems_append`), so that
the part is the item's own: what becomes of an item is said by the answers for its own ranges alone
(`CompletionItem.Takes`).
-/

namespace PolyglotLsp

variable {σ : Type} {c : Collaborators σ}

/-- The ranges of an item's edit. -/
def CompletionItem.editRanges (item : CompletionItem) : List Range :=
  (item.textEdit.map ItemEdit.ranges).getD []

/-- What becomes of an item, given the answers for the ranges of its edit: the edit is moved if all
of them have a place, and else gives way to its text. -/
inductive CompletionItem.Takes (item : CompletionItem) (own : List (Option Range)) :
    CompletionItem → Prop
  | untouched (unedited : item.textEdit = none) : Takes item own item
  | edit {range image : Range} {newText : String}
      (edited : item.textEdit = some (.edit ⟨range, newText⟩)) (placed : own = [some image]) :
      Takes item own { item with textEdit := some (.edit ⟨image, newText⟩) }
  | insertReplace {insert replace insert' replace' : Range} {newText : String}
      (edited : item.textEdit = some (.insertReplace newText insert replace))
      (placed : own = [some insert', some replace']) :
      Takes item own { item with textEdit := some (.insertReplace newText insert' replace') }
  | fallsBack {edit : ItemEdit} (edited : item.textEdit = some edit) (displaced : none ∈ own) :
      Takes item own { item with textEdit := none, insertText := some edit.newText }

namespace Handler

/-! ## One item -/

/-- An item that is handed its part of the answers. -/
def moved (item : CompletionItem) (own : List (Option Range)) : CompletionItem :=
  match item.textEdit with
  | none => item
  | some edit => moveItem item edit own

theorem takes_iff {item other : CompletionItem} {own : List (Option Range)}
    (complete : own.length = item.editRanges.length) :
    item.Takes own other ↔ other = moved item own := by
  unfold CompletionItem.editRanges at complete
  unfold moved moveItem
  constructor
  · rintro (unedited | ⟨edited, rfl⟩ | ⟨edited, rfl⟩ | @⟨edit, edited, displaced⟩)
    · simp [unedited]
    · simp [edited, moveEdit?]
    · simp [edited, moveEdit?]
    · have fails : moveEdit? edit own = none := by
        unfold moveEdit?
        split <;> simp at displaced ⊢
      simp [edited, fails]
  · rintro rfl
    cases edited : item.textEdit with
    | none => exact .untouched edited
    | some edit =>
      rw [edited] at complete
      cases edit with
      | edit e =>
        obtain ⟨image, rfl⟩ := List.length_eq_one_iff.1 complete
        cases image with
        | none => exact .fallsBack edited List.mem_cons_self
        | some image => exact .edit edited rfl
      | insertReplace newText insert replace =>
        obtain ⟨insert', replace', rfl⟩ := List.length_eq_two.1 complete
        cases insert' with
        | none => exact .fallsBack edited List.mem_cons_self
        | some insert' =>
          cases replace' with
          | none => exact .fallsBack edited (by simp)
          | some replace' => exact .insertReplace edited rfl

/-- No answers are as good as answers without places. -/
theorem moved_nil (item : CompletionItem) :
    moved item [] = moved item (item.editRanges.map fun _ => none) := by
  unfold moved CompletionItem.editRanges
  cases item.textEdit with
  | none => rfl
  | some edit => cases edit <;> rfl

/-! ## All items -/

theorem editRanges_cons (item : CompletionItem) (items : List CompletionItem) :
    editRanges (item :: items) = item.editRanges ++ editRanges items := List.flatMap_cons

theorem moveItems_cons (item : CompletionItem) (items : List CompletionItem)
    (answer : List (Option Range)) :
    moveItems (item :: items) answer =
      moved item (answer.take item.editRanges.length) ::
        moveItems items (answer.drop item.editRanges.length) := by
  unfold moved CompletionItem.editRanges
  rw [moveItems]
  cases item.textEdit with
  | none => rfl
  | some edit => rfl

theorem length_moveItems (items : List CompletionItem) (answer : List (Option Range)) :
    (moveItems items answer).length = items.length := by
  induction items generalizing answer with
  | nil => rfl
  | cons item items ih => rw [moveItems_cons, List.length_cons, List.length_cons, ih]

/-- The items before others take away as many answers as they have ranges. -/
theorem moveItems_append (before after : List CompletionItem) (answer : List (Option Range)) :
    moveItems (before ++ after) answer =
      moveItems before answer ++ moveItems after (answer.drop (editRanges before).length) := by
  induction before generalizing answer with
  | nil => rfl
  | cons item before ih =>
    rw [List.cons_append, moveItems_cons, moveItems_cons, ih, List.drop_drop, editRanges_cons,
      List.length_append, List.cons_append]

theorem moveItems_of_unedited {items : List CompletionItem} (h : editRanges items = [])
    (answer : List (Option Range)) : moveItems items answer = items := by
  induction items generalizing answer with
  | nil => rfl
  | cons item items ih =>
    rw [editRanges_cons, List.append_eq_nil_iff] at h
    have unedited : item.textEdit = none := by
      have none := h.1
      unfold CompletionItem.editRanges at none
      cases edited : item.textEdit with
      | none => rfl
      | some edit => cases edit <;> simp [edited, ItemEdit.ranges] at none
    simp only [moveItems, unedited, ih h.2]

/-- The part of an answer that is about an item's own ranges; without an answer, there are no places
for them. -/
def ownPart (before : List CompletionItem) (item : CompletionItem) :
    Option (List (Option Range)) → List (Option Range)
  | some answer => (answer.drop (editRanges before).length).take item.editRanges.length
  | none => item.editRanges.map fun _ => none

/-- Each item is handed its own part. -/
theorem getElem?_moveItems (before after : List CompletionItem) (item : CompletionItem)
    (answer? : Option (List (Option Range))) :
    (moveItems (before ++ item :: after) (answer?.getD []))[before.length]? =
      some (moved item (ownPart before item answer?)) := by
  rw [moveItems_append, moveItems_cons,
    List.getElem?_append_right (Nat.le_of_eq (length_moveItems ..)), length_moveItems, Nat.sub_self]
  cases answer? with
  | none =>
    rw [ownPart, ← moved_nil]
    simp
  | some answer => rfl

theorem length_ownPart {before after : List CompletionItem} {item : CompletionItem}
    {answer? : Option (List (Option Range))}
    (complete : ∀ answer ∈ answer?, answer.length = (editRanges (before ++ item :: after)).length) :
    (ownPart before item answer?).length = item.editRanges.length := by
  cases answer? with
  | none => exact List.length_map _
  | some answer =>
    have whole := complete answer rfl
    rw [editRanges, List.flatMap_append, List.flatMap_cons, List.length_append,
      List.length_append] at whole
    rw [ownPart, List.length_take, List.length_drop, whole]
    refine Nat.min_eq_left ?_
    rw [editRanges, Nat.add_sub_cancel_left]
    exact Nat.le_add_right ..

/-! ## The question -/

/-- What remains to be done once the mapping service has answered. -/
def afterMapping (host : Url) (expected : Int) (items : List CompletionItem) :
    Option (Except RouterError (Option MappedRanges)) →
      Prog (Except RouterError (List CompletionItem))
  | some (.error e) => .done (.error e)
  | some (.ok (some a)) => .op (.hostVersion host) fun version =>
    .done (.ok (moveItems items
      (if a.hostVersion = some expected ∧ version = some expected ∧
        a.ranges.length = (editRanges items).length then a.ranges else [])))
  | _ => .done (.ok (moveItems items []))

theorem remapPrimary_eq (language : Language) (host : Url) (expected : Int)
    (items : List CompletionItem) :
    (remapPrimary language host expected items).run =
      if editRanges items = [] then .done (.ok items)
      else
        .op (.mapRanges language host (editRanges items)) (afterMapping host expected items) := by
  unfold remapPrimary
  by_cases unedited : editRanges items = []
  · simp only [unedited, List.isEmpty_nil, if_true]
    rfl
  · rw [if_neg unedited]
    simp only [List.isEmpty_iff, unedited, if_false]
    refine congrArg (Prog.op _) (funext fun r => ?_)
    rcases r with _ | e | _ | a
    · rfl
    · rfl
    · rfl
    · refine congrArg (Prog.op _) (funext fun version => ?_)
      change Prog.bind (ExceptT.run (if (a.hostVersion == some expected &&
          version == some expected) = true then
        if a.ranges.length = (editRanges items).length then
          pure (some ⟨a.ranges, expected⟩) else pure none
        else pure none : Action (Option Mapping.HostRanges))) (ExceptT.bindCont fun mapped =>
          pure (moveItems items ((mapped.map (·.ranges)).getD []))) = _
      simp only [Bool.and_eq_true, beq_iff_eq, ← and_assoc]
      by_cases current : a.hostVersion = some expected ∧ version = some expected
      · by_cases complete : a.ranges.length = (editRanges items).length
        · simp only [current, complete, and_self, if_true]
          rfl
        · simp only [current, complete, and_self, and_false, if_true, if_false]
          rfl
      · simp only [current, false_and, if_false]
        rfl

end Handler

/-- The answer of the mapping service to a question about ranges, if it counts: it bears the
expected version's stamp, the host was open at this version when it came, and it says something of
every range. -/
def Call.accepted? (language : Language) (host : Url) (expected : Int) (ranges : List Range) :
    Call σ → Option (List (Option Range))
  | ⟨.mapRanges language' host' ranges', _, answered, some (.ok (some a))⟩ =>
    if (language' = language ∧ host' = host ∧ ranges' = ranges) ∧ a.hostVersion = some expected ∧
      answered.store.hostVersion? host = some expected ∧ a.ranges.length = ranges.length then
      some a.ranges
    else none
  | _ => none

namespace Handler

variable {language : Language} {host : Url} {expected : Int} {items : List CompletionItem}

theorem length_of_accepted? {ranges : List Range} {k : Call σ} {answer : List (Option Range)}
    (h : k.accepted? language host expected ranges = some answer) :
    answer.length = ranges.length := by
  unfold Call.accepted? at h
  split at h
  · split at h
    · next accepted =>
      cases h
      exact accepted.2.2.2
    · cases h
  · cases h

/-- The answer that counts, among all calls. -/
def acceptedOf (language : Language) (host : Url) (expected : Int) (items : List CompletionItem)
    (calls : List (Call σ)) : Option (List (Option Range)) :=
  calls.findSome? (Call.accepted? language host expected (editRanges items))

/-- How taking the edits back may end, after these calls: all items are moved by the answer that
counts, or the mapping service has failed. -/
def Moves (language : Language) (host : Url) (expected : Int) (items : List CompletionItem) :
    Post σ (Except RouterError (List CompletionItem)) := fun outcome calls _ =>
  match outcome with
  | .ok result =>
    result = moveItems items ((acceptedOf language host expected items calls).getD [])
  | .error e => ∃ asked answered,
    ⟨.mapRanges language host (editRanges items), asked, answered, some (.error e)⟩ ∈ calls

theorem wp_remapPrimary_moves (m : Moment σ) :
    Prog.wp c (fun _ _ => True) (remapPrimary language host expected items).run
      (Moves language host expected items) [] m := by
  rw [remapPrimary_eq]
  split
  · next unedited => exact (moveItems_of_unedited unedited _).symm
  · refine ⟨trivial, fun answered r _ => ?_⟩
    rcases r with _ | e | _ | a
    · rfl
    · exact ⟨m, answered, List.mem_singleton_self _⟩
    · rfl
    · refine ⟨trivial, fun answered' version genuine => ?_⟩
      have read : answered' = answered ∧ version = answered.store.hostVersion? host :=
        genuine.answers
      simp only [Prog.wp, Moves, acceptedOf, List.cons_append, List.nil_append,
        List.findSome?_cons, List.findSome?_nil, Call.accepted?, read.2, and_self, true_and]
      split
      · rfl
      · rfl

end Handler

open Handler

/-! ## The turns of the request -/

section Open

variable {language : Language} {host : Url} {ranges : List Range}
  {pending due : (Op.mapRanges language host ranges).Pending}

/-- Looking at an open question does not change when its answer is due. -/
theorem eq_of_turns_resume {w : World σ} {turns : List (Turn × World σ)}
    (h : ((World.progressed (w.resume false _ due).2).turns c turns).1 =
      .blocked _ pending .done) : pending = due := by
  have waits {turns : List (Turn × World σ)}
      (h : ((World.progressed (.waiting due)).turns c turns).1 = .blocked _ pending .done) :
      pending = due := by
    induction turns with
    | nil =>
      cases h
      rfl
    | cons t turns ih =>
      obtain ⟨turn, w⟩ := t
      rw [World.progressed, TaskState.turns_cons, World.poll_blocked] at h
      cases turn with
      | own =>
        simp only [World.turn, World.resume, Bool.false_eq_true, if_false] at h
        split at h
        · rw [World.progressed, TaskState.turns_finished] at h
          cases h
        · exact ih h
      | release server => exact ih h
  simp only [World.resume, Bool.false_eq_true, if_false] at h
  split at h
  · rw [World.progressed, TaskState.turns_finished] at h
    cases h
  · exact waits h

theorem World.start_mapRanges (w : World σ) (language : Language) (host : Url)
    (ranges : List Range) :
    (w.start c false (.mapRanges language host ranges)).2 =
      if (w.due (c.mapRanges w.outside language host ranges).2).moment ≤ w.now then
        .answered (some (c.mapRanges w.outside language host ranges).2.value)
      else .waiting (w.due (c.mapRanges w.outside language host ranges).2) := rfl

theorem eq_due_of_turns {w : World σ} {turns : List (Turn × World σ)}
    (h : ((TaskState.ready (.call (.mapRanges language host ranges))).turns c
      ((.own, w) :: turns)).1 = .blocked _ pending .done) :
    pending = w.due (c.mapRanges w.outside language host ranges).2 := by
  rw [TaskState.turns_cons, World.poll_call] at h
  simp only [World.start, Bool.false_eq_true, if_false] at h
  exact eq_of_turns_resume h

end Open

/-- The mapping service still works on the question that the request has asked, and the request has
not been cancelled. -/
def Thread.AwaitsRanges {α : Type} (c : Collaborators σ) (now : Nat) (language : Language)
    (host : Url) (ranges : List Range) (t : Thread σ α) : Prop :=
  t.cancelled = false ∧ now < t.since.world.now +
    (c.mapRanges t.since.world.outside language host ranges).2.delay

variable {language : Language} {host : Url} {expected : Int} {items : List CompletionItem}

theorem finished_afterMapping (r : Option (Except RouterError (Option MappedRanges)))
    (t : Thread σ (Except RouterError (List CompletionItem))) (edits : List Store.Event)
    (w : World σ) :
    ∃ outcome, (t.run c edits (afterMapping host expected items r) w).2.state =
      .finished outcome := by
  rcases r with _ | e | _ | a
  · exact ⟨_, rfl⟩
  · exact ⟨_, rfl⟩
  · exact ⟨_, rfl⟩
  · exact ⟨_, rfl⟩

/-- A turn of the request ends it, unless its question is open. -/
theorem ended_or_awaits {s : Session σ (Except RouterError (List CompletionItem))}
    (reachable : s.Reachable c) {t : Thread σ (Except RouterError (List CompletionItem))}
    (ht : t ∈ s.threads) (program : t.program = (remapPrimary language host expected items).run) :
    (∃ outcome, (t.turn c s.edits .own s.world).2.state = .finished outcome) ∨
      (t.turn c s.edits .own s.world).2.AwaitsRanges c s.world.now language host (editRanges items) := by
  have everywhere (m : Moment σ) : t.program.everywhere c (fun _ o next =>
      Prog.op o next = .op (.mapRanges language host (editRanges items))
          (afterMapping host expected items) ∨
        ∃ f, Prog.op o next = .op (.hostVersion host) f) [] m := by
    rw [program, remapPrimary_eq]
    split
    · trivial
    · refine ⟨.inl rfl, fun answered r _ => ?_⟩
      rcases r with _ | e | _ | a
      · trivial
      · trivial
      · trivial
      · exact ⟨.inr ⟨_, rfl⟩, fun _ _ _ => trivial⟩
  cases hs : t.state with
  | ready p =>
    have begun := reachable.follows ht
    simp only [Thread.Follows, hs] at begun
    simp only [Thread.turn, hs, begun.1, program, remapPrimary_eq]
    split
    · exact .inl ⟨_, rfl⟩
    · simp only [Thread.run]
      cases active : t.cancelled with
      | true => exact .inl (finished_afterMapping ..)
      | false =>
        have answer := s.world.start_mapRanges (c := c) language host (editRanges items)
        generalize s.world.start c false (.mapRanges language host (editRanges items)) = started
          at answer ⊢
        obtain ⟨w', progress⟩ := started
        obtain rfl : progress = _ := answer
        by_cases due : (s.world.due (c.mapRanges s.world.outside language host
            (editRanges items)).2).moment ≤ s.world.now
        · simp only [due, if_true]
          exact .inl (finished_afterMapping ..)
        · simp only [due, if_false]
          exact .inr ⟨active, Nat.not_le.1 due⟩
  | blocked o pending next =>
    rcases reachable.rest_of_blocked ht everywhere hs with rest | ⟨f, rest⟩
    · cases rest
      have followed := reachable.uninterrupted ht
      simp only [Thread.Uninterrupted, hs] at followed
      simp only [Thread.turn, hs, World.turn, World.resume]
      cases active : t.cancelled with
      | true => exact .inl (finished_afterMapping ..)
      | false =>
        obtain ⟨looks, requests, asked, -⟩ := followed active
        simp only [Bool.false_eq_true, if_false]
        by_cases due : pending.moment ≤ s.world.now
        · rw [if_pos due]
          exact .inl (finished_afterMapping ..)
        · rw [if_neg due]
          rw [eq_due_of_turns (congrArg Prod.fst asked)] at due
          exact .inr ⟨active, Nat.not_le.1 due⟩
    · cases rest
      exact pending.elim
  | finished outcome =>
    refine .inl ⟨outcome, ?_⟩
    simp only [Thread.turn, hs]

/-- What becomes of the items of a list whose edits are taken back to the host. Each item is moved
by the answers for its own ranges, which stand in the answer that counts after those for the items
before it; if no answer counts, no range has a place. There is no result only if the mapping service
has failed, or still works on the question. -/
theorem remapPrimary_takes {s : Session σ (Except RouterError (List CompletionItem))}
    (reachable : s.Reachable c) {place : Nat}
    {t : Thread σ (Except RouterError (List CompletionItem))} (ht : s.threads[place]? = some t)
    (program : t.program = (remapPrimary language host expected items).run) :
    (∀ result, t.state = .finished (.ok result) → result.length = items.length ∧
      ∀ before item after, items = before ++ item :: after →
        ∃ item', result[before.length]? = some item' ∧ ∀ other, other = item' ↔
          item.Takes (ownPart before item (acceptedOf language host expected items t.calls))
            other) ∧
    (∀ e, t.state = .finished (.error e) → ∃ asked answered,
      ⟨.mapRanges language host (editRanges items), asked, answered, some (.error e)⟩ ∈ t.calls) ∧
    (∀ k ∈ t.calls, k.Genuine c) ∧
    ∃ t', (s.step c (.polled place)).threads[place]? = some t' ∧
      ((∃ outcome, t'.state = .finished outcome) ∨
        t'.AwaitsRanges c s.world.now language host (editRanges items)) := by
  have mem := List.mem_of_getElem? ht
  have meets : t.Meets c (fun _ _ => True) (Moves language host expected items) s.moment :=
    reachable.meets mem fun m _ => program ▸ wp_remapPrimary_moves m
  refine ⟨fun result ended => ?_, fun e ended => ?_, fun k hk => reachable.genuine mem hk, ?_⟩
  · obtain ⟨_, rfl⟩ := meets.finished ended
    refine ⟨length_moveItems .., ?_⟩
    rintro before item after rfl
    have complete : ∀ answer ∈ acceptedOf language host expected (before ++ item :: after) t.calls,
        answer.length = (editRanges (before ++ item :: after)).length := by
      intro answer found
      obtain ⟨k, -, accepted⟩ := List.exists_of_findSome?_eq_some found
      exact length_of_accepted? accepted
    exact ⟨_, getElem?_moveItems .., fun other => (takes_iff (length_ownPart complete)).symm⟩
  · obtain ⟨_, failed⟩ := meets.finished ended
    exact failed
  · exact ⟨_, Session.getElem?_polled ht, ended_or_awaits reachable mem program⟩

/-! ## A list of the sample -/

open Scenario Scenario.Sample

namespace Scenario.Sample

/-- The start of a line. -/
def atLine (line : Nat) : Range := ⟨⟨line, 0⟩, ⟨line, 1⟩⟩

def withEdit (edit : ItemEdit) : CompletionItem :=
  { (default : CompletionItem) with textEdit := some edit }

/-- Items with and without edits; the third line, on which one of them replaces, has no place in the
host. -/
def edited : List CompletionItem :=
  [withEdit (.edit ⟨atLine 0, "a"⟩), default, withEdit (.insertReplace "c" (atLine 1) (atLine 2)),
    withEdit (.edit ⟨atLine 3, "d"⟩)]

/-- Their edits are taken back to the host, which takes five moments. -/
def retrieving : List (Session.Event Script (Except RouterError (List CompletionItem))) :=
  [.changed (.stored (.opened hostUrl 1 "@word")),
    .spawned false (remapPrimary .csharp hostUrl 1 edited).run, .polled 0, .clock 5, .polled 0]

def retrieved : Session Script (Except RouterError (List CompletionItem)) :=
  (Session.new (script (some 1) [])).play steady retrieving

theorem record_retrieved :
    retrieved.threads.map (fun t => (t.reply?.map (·.length),
      acceptedOf .csharp hostUrl 1 edited t.calls)) =
    [(some 4, some [some (atLine 0), some (atLine 1), none, some (atLine 3)])] := by
  decide +kernel

theorem exists_retrieved :
    ∃ t result, retrieved.threads[0]? = some t ∧ t.state = .finished (.ok result) ∧
      t.program = (remapPrimary .csharp hostUrl 1 edited).run ∧
      acceptedOf .csharp hostUrl 1 edited t.calls =
        some [some (atLine 0), some (atLine 1), none, some (atLine 3)] := by
  obtain ⟨t, only, record⟩ := List.map_eq_singleton_iff.1 record_retrieved
  obtain ⟨replied, accepted⟩ := Prod.mk.inj record
  obtain ⟨result, replied, -⟩ := Option.map_eq_some_iff.1 replied
  have mem : t ∈ retrieved.threads := only ▸ List.mem_singleton_self t
  have program := List.mem_singleton.1 (Session.program_mem_begun mem)
  exact ⟨t, result, by rw [only]; rfl, Thread.finished_of_reply? replied, program, accepted⟩

end Scenario.Sample

theorem remapPrimary_takes_edited :
    ∃ t result, retrieved.threads[0]? = some t ∧ t.state = .finished (.ok result) ∧
      result.length = 4 ∧
      (∃ item, result[2]? = some item ∧ item.textEdit = none ∧ item.insertText = some "c") ∧
      ∃ item, result[3]? = some item ∧ item.textEdit = some (.edit ⟨atLine 3, "d"⟩) := by
  obtain ⟨t, result, ht, ended, program, accepted⟩ := exists_retrieved
  have reachable : retrieved.Reachable steady := (Session.Reachable.new _).play retrieving
  obtain ⟨length, taken⟩ := (remapPrimary_takes reachable ht program).1 result ended
  rw [accepted] at taken
  refine ⟨t, result, ht, ended, length, ?_, ?_⟩
  · obtain ⟨item, found, takes⟩ := taken (edited.take 2) _ (edited.drop 3) rfl
    cases (takes _).2 (.fallsBack rfl (by decide))
    exact ⟨_, found, rfl, rfl⟩
  · obtain ⟨item, found, takes⟩ := taken (edited.take 3) _ [] rfl
    cases (takes _).2 (.edit rfl rfl)
    exact ⟨_, found, rfl⟩

end PolyglotLsp
