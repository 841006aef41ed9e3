import PolyglotLsp.Proofs.Handler.Waiting
import PolyglotLsp.Proofs.Progress.Correlator

/-!
# References gather what was streamed

Once the servers have been waited for, references stop listening at once. They get all payloads that
were accepted for their token, unless the listener ended earlier or was disposed of
(`Progress.gathered`, `run_stopListening`), and go on with the locations in them, followed by those
of the answer that counts (`run_gather`). If the request has been cancelled, nobody takes locations
in virtual documents back to their hosts any more, and only the others are left
(`run_remapLocations`).
-/

namespace PolyglotLsp

variable {σ : Type} {c : Collaborators σ} {cancelled : Bool}

/-! ## The end of listening -/

namespace Progress

theorem listener?_poll (p : Progress) (now id id' : Nat) :
    (p.poll now id).listener? id' =
      if id' = id then (p.listener? id).map (·.turn p.disposed now) else p.listener? id' := by
  unfold poll
  cases hl : p.listener? id with
  | none =>
    by_cases same : id' = id
    · simp [same, hl]
    · simp [same]
  | some l =>
    have number : (l.turn p.disposed now).id = id :=
      (l.move_turn p.disposed now).id.trans (id_of_listener? hl)
    have found : (p.modify id fun _ => l.turn p.disposed now).listener? id' =
        if id' = id then some (l.turn p.disposed now) else p.listener? id' := by
      rw [listener?_modify p fun _ _ => number, hl]
      rfl
    dsimp only
    split
    · exact found
    · exact found

/-- The payloads that the request of a listener gets when it stops to listen: those handed over
and, unless the listener has ended or is disposed of, those that wait. -/
def gathered (p : Progress) (id : Nat) : List Json :=
  match p.listener? id with
  | none => []
  | some l => if l.outcome.isSome || p.disposed then l.handled else l.handled ++ l.queue

theorem handled_stopped (p : Progress) (now id : Nat) :
    ((((p.cancel id).poll now id).listener? id).map (·.handled)).getD [] = p.gathered id := by
  have disposed : (p.cancel id).disposed = p.disposed := rfl
  rw [listener?_poll, if_pos rfl, listener?_cancel, if_pos rfl, disposed]
  unfold gathered
  cases p.listener? id with
  | none => rfl
  | some l =>
    simp only [Option.map_some, Option.getD_some, Listener.turn]
    cases l.outcome with
    | some o => rfl
    | none => cases p.disposed <;> rfl

end Progress

namespace World

/-- The world after a request has stopped to listen, if it did listen. -/
def stopped (w : World σ) : Option (Nat × Token) → World σ
  | none => w
  | some (id, _) =>
    { w with core := { w.core with progress := (w.core.progress.cancel id).poll w.now id } }

/-- The payloads that the request gets then. -/
def gathered (w : World σ) : Option (Nat × Token) → List Json
  | none => []
  | some (id, _) => w.core.progress.gathered id

theorem run_stopListening (w : World σ) (listening : Option (Nat × Token)) :
    w.run c cancelled (Handler.stopListening listening) =
      (w.stopped listening, .finished (.ok (w.gathered listening))) := by
  rcases listening with _ | ⟨id, token⟩
  · rfl
  · rw [gathered, ← Progress.handled_stopped w.core.progress w.now id]
    rfl

/-- What references do with an answer: they add its locations to those that were streamed, and go on
with their reply. -/
theorem run_gather_bind {β : Type} (w : World σ) (listening : Option (Nat × Token))
    (answer : Option (Tagged (List Location))) (f : Option (List Location) → Action β) :
    w.run c cancelled (Handler.gather listening (.ok answer) >>= f : Action β) =
      if answer.isNone && (Handler.streamedLocations (w.gathered listening)).isEmpty then
        (w.stopped listening).run c cancelled (f none)
      else
        (w.stopped listening).run c cancelled (Mapping.remapLocations
          (Handler.streamedLocations (w.gathered listening) ++ (answer.map (·.value)).getD []) >>=
            fun locations => f (some locations) : Action β) := by
  have read : (w.stopped listening).run c cancelled (Action.ofExcept (.ok answer)) =
      (w.stopped listening, .finished (.ok answer)) := rfl
  rw [Handler.gather, bind_assoc, run_action_bind (run_stopListening w listening), bind_assoc,
    run_action_bind read]
  dsimp only
  by_cases nothing :
      (answer.isNone && (Handler.streamedLocations (w.gathered listening)).isEmpty) = true
  · rw [if_pos nothing, if_pos nothing, pure_bind]
  · rw [if_neg nothing, if_neg nothing, bind_assoc]
    simp only [pure_bind]

theorem run_gather (w : World σ) (listening : Option (Nat × Token))
    (answer : Option (Tagged (List Location))) :
    w.run c cancelled (Handler.gather listening (.ok answer)) =
      if answer.isNone && (Handler.streamedLocations (w.gathered listening)).isEmpty then
        (w.stopped listening, .finished (.ok none))
      else
        (w.stopped listening).run c cancelled (some <$> Mapping.remapLocations
          (Handler.streamedLocations (w.gathered listening) ++
            (answer.map (·.value)).getD []) : Action (Option (List Location))) := by
  have gathered : w.run c cancelled
      (Handler.gather listening (.ok answer) >>= pure : Action (Option (List Location))) = _ :=
    run_gather_bind w listening answer pure
  rw [bind_pure] at gathered
  rw [gathered, map_eq_pure_bind]
  rfl

/-! ## Locations after a cancellation -/

theorem run_mapM {ι β : Type} {w : World σ} {f : ι → Action β} {g : ι → β}
    (h : ∀ x, w.run c cancelled (f x) = (w, .finished (.ok (g x)))) (items : List ι) :
    w.run c cancelled (items.mapM f : Action (List β)) = (w, .finished (.ok (items.map g))) := by
  induction items with
  | nil => rfl
  | cons x rest ih =>
    rw [List.mapM_cons, run_action_bind (h x), run_action_bind ih]
    rfl

theorem run_mapVirtual (w : World σ) (url : Url) (ranges : List Range) :
    w.run c true (Mapping.mapVirtual url ranges) = (w, .finished (.ok none)) := by
  have nobody : w.run c true (Mapping.mapVirtualRanges url ranges) = (w, .finished (.ok none)) := by
    have resolved : w.run c true (Action.call (.resolveVirtual url)) =
        (w, .finished (.ok (w.core.store.resolve? url))) := rfl
    rw [Mapping.mapVirtualRanges, run_action_bind resolved]
    rcases w.core.store.resolve? url with _ | ⟨host, language⟩
    · rfl
    have read : w.run c true (Action.call (.hostVersion host)) =
        (w, .finished (.ok (w.core.store.hostVersion? host))) := rfl
    dsimp only
    rw [run_action_bind read]
    cases w.core.store.hostVersion? host <;> rfl
  rw [Mapping.mapVirtual, run_action_bind nobody]
  rfl

end World

/-- Whether a location lies in no virtual document. -/
def Location.ordinary (l : Location) : Bool := (Mapping.virtualUrl? l.uri).isNone

/-- Without mapped locations, virtual ones are dropped. -/
theorem Mapping.place_eq_filter {mapped : Table Url (List (Option Location))}
    (h : ∀ e ∈ mapped, ∀ l ∈ e.2, l = none) (locations : List Location) :
    place mapped locations = locations.filter (·.ordinary) := by
  induction locations generalizing mapped with
  | nil => rfl
  | cons l rest ih =>
    unfold place
    cases hu : virtualUrl? l.uri with
    | none =>
      have kept : l.ordinary = true := by simp [Location.ordinary, hu]
      rw [List.filter_cons, if_pos kept]
      exact congrArg (l :: ·) (ih h)
    | some url =>
      have dropped : ¬ l.ordinary = true := by simp [Location.ordinary, hu]
      rw [List.filter_cons, if_neg dropped]
      dsimp only
      split
      · next r more hm =>
        have entry : ∀ l' ∈ r :: more, l' = none := h _ (Table.mem_of_get? hm)
        rw [entry r List.mem_cons_self]
        refine ih fun e he l' hl' => ?_
        rcases Table.mem_set he with rfl | he
        · exact entry l' (List.mem_cons_of_mem _ hl')
        · exact h e he l' hl'
      · exact ih h

/-- Nobody takes locations back to their hosts for a request that has been cancelled. -/
theorem World.run_remapLocations (w : World σ) (locations : List Location) :
    w.run c true (Mapping.remapLocations locations) =
      (w, .finished (.ok (locations.filter (·.ordinary)))) := by
  let ranges (url : Url) : List Range :=
    (locations.filter fun l => Mapping.virtualUrl? l.uri = some url).map (·.range)
  let groups := (locations.filterMap fun l => Mapping.virtualUrl? l.uri).eraseDups
  have each (url : Url) : w.run c true (do
      let answer ← Mapping.mapVirtual url (ranges url)
      pure (url, Mapping.groupLocations (ranges url).length answer) : Action _) =
        (w, .finished (.ok (url, List.replicate (ranges url).length none))) := by
    rw [run_action_bind (run_mapVirtual w url (ranges url))]
    rfl
  refine (run_action_bind (run_mapM each groups) _).trans ?_
  rw [Mapping.place_eq_filter]
  · rfl
  · intro e he l hl
    obtain ⟨url, -, rfl⟩ := List.mem_map.1 he
    exact (List.mem_replicate.1 hl).2

end PolyglotLsp
