import PolyglotLsp.Proofs.Handler.Gathering
import PolyglotLsp.Proofs.Replies

/-!
# Cancelled requests

A request about a position that is cancelled while it waits for the classifier, the synchronizer or
servers goes on without an answer at its next turn (`resume_gaveUp`, `exists_polled`). In most cases
it then has nothing to show. Two requests take something else for their answer once they have been
forwarded: references keep what servers have streamed into ordinary documents, and a completion in
markup still asks for the names of tag helpers.
-/

namespace PolyglotLsp

variable {σ : Type} {c : Collaborators σ}

theorem World.resume_gaveUp (w : World σ) {o : Op} (pending : o.Pending) {r : o.Result}
    (h : o.gaveUp? = some r) : w.resume true o pending = (w, .answered r) := by
  cases o with
  | classify | synchronize | askFirst =>
    cases h
    rfl
  | _ => cases h

theorem Op.prepares_of_gaveUp? {o : Op} {r : o.Result} (h : o.gaveUp? = some r)
    (unasked : o.asks = false) : o.prepares = true := by
  cases o with
  | classify | synchronize => rfl
  | askFirst => cases unasked
  | _ => cases h

/-- The turn of a request that gives up what it waits for. -/
theorem Session.exists_polled {α : Type} {s : Session σ α} {place : Nat} {t : Thread σ α}
    (ht : s.threads[place]? = some t) (cancelled : t.cancelled = true) {o : Op}
    {pending : o.Pending} {next : o.Result → Prog α} (hs : t.state = .blocked o pending next)
    {r : o.Result} (hr : o.gaveUp? = some r) :
    ∃ t', (s.step c (.polled place)).threads[place]? = some t' ∧
      t'.state = (s.world.run c true (next r)).2 := by
  rw [← cancelled]
  refine exists_polled_of_answered ht hs ?_
  rw [cancelled]
  exact World.resume_gaveUp _ pending hr

/-- What references that were streamed are left with after a cancellation. -/
def leftovers (streamed : List Location) : Option (List Location) :=
  if streamed.isEmpty then none else some (streamed.filter (·.ordinary))

theorem World.run_gather_nothing (w : World σ) (listening : Option (Nat × Token)) :
    w.run c true (Handler.gather listening (.ok none)) = (w.stopped listening,
      .finished (.ok (leftovers (Handler.streamedLocations (w.gathered listening))))) := by
  rw [run_gather, leftovers]
  cases Handler.streamedLocations (w.gathered listening) with
  | nil => rfl
  | cons l rest =>
    rw [if_neg (by simp), if_neg (by simp), map_eq_pure_bind,
      run_action_bind (run_remapLocations ..)]
    simp only [Option.map_none, Option.getD_none, List.append_nil]
    rfl

/-- What becomes at its next turn of a request about a position that has been cancelled while it
waits. -/
theorem cancelled_wait (c : Collaborators σ) {s : Session σ (Except RouterError Answer)}
    (h : s.Reachable c) {place : Nat} {t : Thread σ (Except RouterError Answer)}
    (ht : s.threads[place]? = some t) {r : PositionRequest}
    (program : t.program = (Request.position r).answer) (cancelled : t.cancelled = true)
    {o : Op} {pending : o.Pending} {next : o.Result → Prog (Except RouterError Answer)}
    (waits : t.state = .blocked o pending next) (given : o.gaveUp?.isSome = true) :
    ∃ t', (s.step c (.polled place)).threads[place]? = some t' ∧
      match r.ask, o.asks with
      | .references _, true => ∃ asked answered listening,
        t.calls.getLast? = some ⟨.listen, asked, answered, listening⟩ ∧
          t'.state = .finished (.ok (.references
            (leftovers (Handler.streamedLocations (s.world.gathered listening)))))
      | .completion _, true => ∃ p v a, Projected r.place p v a t.calls ∧
        (p.language ≠ .html → t'.state = .finished (.ok (.completion none))) ∧
        (p.language = .html → t'.state = (s.world.run c true (do
          let items ← Handler.tagHelperItems p
          pure (.completion (Handler.extend none items)) : Action Answer)).2)
      | ask, _ => t'.state = .finished (.ok ask.nothing) := by
  obtain ⟨outcome, ho⟩ := Option.isSome_iff_exists.1 given
  obtain ⟨t', ht', state⟩ := Session.exists_polled (c := c) ht cancelled waits ho
  obtain ⟨early, late⟩ := h.waits (List.mem_of_getElem? ht) program waits
  refine ⟨t', ht', ?_⟩
  cases asks : o.asks with
  | false =>
    have ends := early (Op.prepares_of_gaveUp? ho asks) outcome ho
    rw [ends] at state
    split
    · cases ‹false = true›
    · cases ‹false = true›
    · exact state
  | true =>
    have rest := late asks
    unfold PositionRequest.asking at rest
    cases hask : r.ask with
    | references =>
      rw [hask] at rest
      generalize t.calls = calls at rest ⊢
      obtain ⟨gathering, ⟨projected, asked, answered, listening⟩, rfl⟩ := rest
      cases ho
      refine ⟨asked, answered, listening, by simp, ?_⟩
      rw [state, World.run_bind (s.world.run_gather_nothing listening)]
      rfl
    | completion =>
      rw [hask] at rest
      obtain ⟨next', ⟨p, v, a, projected, goesOn⟩, rfl⟩ := rest
      dsimp only at state
      rw [goesOn outcome ho] at state
      refine ⟨p, v, a, projected, fun code => ?_, fun markup => ?_⟩
      · rw [state, Handler.withoutServers, if_neg code]
        rfl
      · rw [state, Handler.withoutServers, if_pos markup]
        have merged : (do
            let list ← (do
              let items ← Handler.tagHelperItems p
              pure (Handler.extend none items) : Action (Option CompletionList))
            pure (Answer.completion list) : Action Answer) = (do
              let items ← Handler.tagHelperItems p
              pure (.completion (Handler.extend none items))) := by
          simp only [bind_assoc, pure_bind]
        exact congrArg (fun p => (s.world.run c true p).2) merged
    | _ =>
      rw [hask] at rest
      rw [rest outcome ho] at state
      exact state

/-! ## Requests of the sample -/

open Scenario Scenario.Sample

namespace Scenario.Sample

/-- A request that is cancelled while it waits for the server, which works on it for a second. -/
def withdrawn (notes : List NoteScript) (a : Ask) : Session Script (Except RouterError Answer) :=
  (asking (script (some 1) [(a.method, [⟨notes, 1000, .answer .null⟩])]) (request a) []).step
    Script.collaborators (.cancelled 0)

variable {notes : List NoteScript} {a : Ask}

theorem reachable_withdrawn : (withdrawn notes a).Reachable Script.collaborators :=
  reachable_asking.step _

theorem program_withdrawn {t : Thread Script (Except RouterError Answer)}
    (ht : t ∈ (withdrawn notes a).threads) : t.program = (request a).answer := by
  rcases Session.program_step ht with ⟨t', ht', same⟩ | ⟨cancelled, spawned⟩
  · exact same ▸ program_asking ht'
  · cases spawned

/-- Whether a request has been cancelled while it waits for what it then gives up. -/
def givesUp (t : Thread Script (Except RouterError Answer)) : Bool :=
  match t.state with
  | .blocked o _ _ => t.cancelled && o.gaveUp?.isSome
  | _ => false

theorem exists_of_givesUp {t : Thread Script (Except RouterError Answer)} (h : givesUp t = true) :
    t.cancelled = true ∧ ∃ o pending next, t.state = .blocked o pending next ∧
      o.gaveUp?.isSome = true := by
  unfold givesUp at h
  split at h
  · next o pending next waits =>
    obtain ⟨cancelled, given⟩ := Bool.and_eq_true_iff.1 h
    exact ⟨cancelled, o, pending, next, waits, given⟩
  · cases h

end Scenario.Sample

theorem cancelled_wait_hover :
    ∃ t, (withdrawn [] .hover).threads[0]? = some t ∧ t.cancelled = true ∧
      (∃ o pending next, t.state = .blocked o pending next ∧ o.gaveUp?.isSome = true) ∧
      ∃ t', ((withdrawn [] .hover).step Script.collaborators (.polled 0)).threads[0]? = some t' ∧
        t'.state = .finished (.ok (.hover none)) := by
  have observed : ((withdrawn [] .hover).threads[0]?.map givesUp) = some true := by decide +kernel
  obtain ⟨t, ht, gives⟩ := Option.map_eq_some_iff.1 observed
  obtain ⟨cancelled, o, pending, next, waits, given⟩ := exists_of_givesUp gives
  exact ⟨t, ht, cancelled, ⟨o, pending, next, waits, given⟩,
    cancelled_wait _ reachable_withdrawn ht (program_withdrawn (List.mem_of_getElem? ht))
      cancelled waits given⟩

/-- References that have been cancelled while the server was working still have a reply: what the
server had streamed. -/
theorem streamed_after_cancellation :
    ∃ t, (withdrawn [streaming 0 [elsewhere]] (.references true)).threads[0]? = some t ∧
      t.program = (request (.references true)).answer ∧ t.cancelled = true ∧
      (∃ o pending next, t.state = .blocked o pending next ∧ o.gaveUp?.isSome = true) ∧
      ∃ t', ((withdrawn [streaming 0 [elsewhere]] (.references true)).step Script.collaborators
        (.polled 0)).threads[0]? = some t' ∧ t'.reply?.map (·.places) = some [elsewhere] := by
  let s := withdrawn [streaming 0 [elsewhere]] (.references true)
  have observed : s.threads[0]?.map givesUp = some true := by decide +kernel
  have replied : (s.step Script.collaborators (.polled 0)).threads[0]?.map
      (fun t => t.reply?.map (·.places)) = some (some [elsewhere]) := by decide +kernel
  obtain ⟨t, ht, gives⟩ := Option.map_eq_some_iff.1 observed
  obtain ⟨t', ht', places⟩ := Option.map_eq_some_iff.1 replied
  obtain ⟨cancelled, waits⟩ := exists_of_givesUp gives
  exact ⟨t, ht, program_withdrawn (List.mem_of_getElem? ht), cancelled, waits, t', ht', places⟩

end PolyglotLsp
