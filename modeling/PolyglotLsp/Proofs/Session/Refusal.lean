import PolyglotLsp.Proofs.Document.Refusal
import PolyglotLsp.Proofs.Session.Logic
import PolyglotLsp.Scenario.Sample

/-!
# What is declined leaves no trace

A router whose store declines an edit or a regeneration is the router that never heard of it
(`Core.change_of_declines`): it has the same documents and tells servers nothing. Only the records
of a session know of it, and records have no influence on what happens (`machine_step`). So all
requests go on as they would have gone on, those that wait for documents among them.
-/

namespace PolyglotLsp

/-- Whoever asks for what the store declines, the router stays and has nothing to pass on. -/
theorem Core.change_of_declines {core : Core} {k : Change} {e : Store.Event} (hk : k.edits = [e])
    (h : core.store.Declines e) : core.change k = (core, []) := by
  cases k with
  | edited d =>
    obtain ⟨url, hu⟩ : ∃ url, d.uri.toUrl? = some url := by
      cases hu : d.uri.toUrl? with
      | none => simp [Change.edits, hu] at hk
      | some url => exact ⟨url, rfl⟩
    obtain rfl : .edited url d.version d.changes = e := by simpa [Change.edits, hu] using hk
    obtain ⟨error, fails⟩ := h
    simp only [change, changeDocument, hu, fails]
  | regenerated r =>
    obtain rfl : .regenerated r = e := by simpa [Change.edits] using hk
    rcases h with ⟨error, fails⟩ | ⟨store, ignored⟩
    · simp only [change, regenerate, fails]
    · simp only [change, regenerate, ignored]
  | stored e' =>
    obtain rfl : e' = e := by simpa [Change.edits] using hk
    simp only [change, h.step]
  | opened d =>
    obtain ⟨url, -, rfl⟩ := List.mem_map.1 (hk ▸ List.mem_singleton_self e : e ∈ Change.edits _)
    exact h.elim
  | closed uri =>
    obtain ⟨url, -, rfl⟩ := List.mem_map.1 (hk ▸ List.mem_singleton_self e : e ∈ Change.edits _)
    exact h.elim
  | told | started | configured | shutDown | registered | unregistered | forgot | syncTimeout
  | syncRejects | requestTimeout => cases hk

namespace Session

variable {σ α : Type} {c : Collaborators σ} {s s' : Session σ α}

/-- Records have no influence on a step. -/
theorem machine_step (h : s.machine = s'.machine) (e : Event σ α) :
    (s.step c e).machine = (s'.step c e).machine := by
  have world : s.world = s'.world := congrArg Machine.world h
  have tasks : s.threads.map (·.toTask) = s'.threads.map (·.toTask) := congrArg Machine.tasks h
  have nextId : s.nextId = s'.nextId := congrArg Machine.nextId h
  have listening : s.listening = s'.listening := congrArg Machine.listening h
  cases e with
  | changed k => simp only [step, change, machine, world, tasks, nextId, listening]
  | elsewhere | listened | clock => simp only [step, machine, world, tasks, nextId, listening]
  | spawned cancelled p =>
    simp only [step, spawn, machine, List.map_append, List.map_cons, List.map_nil, world, tasks,
      nextId, listening]
  | cancelled id => simp only [step, machine_cancel, h]
  | dropped id => rw [machine_dropped, machine_dropped, h]
  | polled | released => simp only [step, machine_turn, h]

theorem machine_play (h : s.machine = s'.machine) (events : List (Event σ α)) :
    (s.play c events).machine = (s'.play c events).machine := by
  induction events generalizing s s' with
  | nil => exact h
  | cons e events ih => exact ih (machine_step h e)

/-- In every session, the store declines an edit or a regeneration exactly for one of the reasons
against it. Whether the editor, the compiler or somebody else has asked for it, the whole world is
then as it was before, what servers have been told included, and whatever requests do later they
would have done without it. Nor does it make a difference to calls that wait for documents, wherever
they stand between their subscription and their end. -/
theorem declined_leaves_no_trace (hs : s.Reachable c) (e : Store.Event) :
    (s.moment.store.Declines e ↔ s.moment.store.Refused e) ∧
      (s.moment.store.Declines e → ∀ k : Change, k.edits = [e] →
        (s.change c k).world = s.world ∧
        ∀ later, ((s.change c k).play c later).machine = (s.play c later).machine) ∧
      ∀ past : List WaitingRoom.Event, (WaitingRoom.after past).store.Declines e →
        ∀ later, WaitingRoom.after (later ++ .stored e :: past) =
          WaitingRoom.after (later ++ past) := by
  refine ⟨?_, ?_, ?_⟩
  · rw [hs.lawful.1]
    exact Store.declines_iff ..
  · intro declines k hk
    have core : s.world.core.change k = (s.world.core, []) := Core.change_of_declines hk declines
    have stays : (s.change c k).world = s.world := by
      simp only [change, core]
      rfl
    have same : (s.change c k).machine = s.machine := by
      simp only [machine, stays]
      rfl
    exact ⟨stays, machine_play same⟩
  · intro past declines later
    exact WaitingRoom.after_append_of_declines declines later

end Session

open Scenario Scenario.Sample

/-- A request waits for the code as of the second host version. -/
def Scenario.Sample.expecting : Session Script (Option VirtualSnapshot) :=
  (Session.new (script none [])).play Script.collaborators [
    .changed (.stored (.opened hostUrl 1 "@word")),
    .spawned false (.call (.synchronize 2 (.empty codeUri))),
    .polled 0]

/-- A batch whose first change puts the word on a second line; there is no third one. -/
def Scenario.Sample.overreaching : ChangedDocument where
  uri := hostUri
  version := 2
  changes :=
    [⟨some ⟨⟨0, 0⟩, ⟨0, 1⟩⟩, none, "\n"⟩] ++ ⟨some ⟨⟨2, 0⟩, ⟨2, 0⟩⟩, none, "."⟩ :: []

theorem Session.declined_leaves_no_trace_expecting :
    (expecting.change Script.collaborators (.edited overreaching)).world = expecting.world ∧
      ∀ later, ((expecting.change Script.collaborators (.edited overreaching)).play
          Script.collaborators later).machine =
        (expecting.play Script.collaborators later).machine := by
  have reachable : expecting.Reachable Script.collaborators := (Session.Reachable.new _).play _
  obtain ⟨reasons, untouched, -⟩ :=
    declined_leaves_no_trace reachable (.edited hostUrl 2 overreaching.changes)
  have url : hostUri.toUrl? = some hostUrl := by decide +kernel
  refine untouched (reasons.2 ?_) (.edited overreaching) ?_
  · rw [reachable.lawful.1]
    have found : (Store.after expecting.edits).get? hostUrl =
        some ⟨hostUrl, 1, "@word", (Store.virtualUris hostUrl).map .empty⟩ := by
      decide +kernel
    have reached : [⟨some ⟨⟨0, 0⟩, ⟨0, 1⟩⟩, none, "\n"⟩].foldlM (Store.applyChange hostUrl)
        "@word" = .ok "\nword" := by
      decide +kernel
    exact .editedBeyond 2 [] found reached ⟨_, rfl, by decide⟩
  · simp [Change.edits, overreaching, url]

end PolyglotLsp
