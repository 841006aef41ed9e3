import PolyglotLsp.Proofs.Session.Logic
import PolyglotLsp.Scenario.Sample

/-!
# Waits for virtual documents

A wait sees nothing of what happens while it waits but the document it follows. Whatever else is
going on, other waits included, a wait that ends well ends with the document it was given, if that
was good enough already, or with one that a regeneration published under the opening in force when
the wait began. A host that is closed and opened again begins another opening, so that its documents
never end an older wait.
-/

namespace PolyglotLsp

variable {σ α : Type} {c : Collaborators σ}

/-- The expected version, document and outcome of a wait that ended well. -/
def Call.synchronized? : Call σ → Option (Int × VirtualSnapshot × VirtualSnapshot)
  | ⟨.synchronize expected d, _, _, some found⟩ => some (expected, d, found)
  | _ => none

theorem Call.eq_of_synchronized? {k : Call σ} {expected : Int} {d found : VirtualSnapshot}
    (h : k.synchronized? = some (expected, d, found)) :
    k = ⟨.synchronize expected d, k.asked, k.answered, some found⟩ := by
  unfold Call.synchronized? at h
  split at h
  · cases h
    rfl
  · cases h

/-- Every wait that ends with a document, in any session and among any other requests: the document
has the name that was asked for, reflects the expected version or a later one, and is the one that
was given or was published under the very opening of the host that was in force at the start. The
histories are those of the stores at the start and at the end of the wait. -/
theorem synchronize_result {s : Session σ α} (hs : s.Reachable c) {t : Thread σ α}
    (ht : t ∈ s.threads) {expected : Int} {d found : VirtualSnapshot} {asked answered : Moment σ}
    (hk : ⟨.synchronize expected d, asked, answered, some found⟩ ∈ t.calls) :
    (found.host = d.host ∧ found.language = d.language ∧ found.url = d.url) ∧
      (∃ v, found.hostVersion = some v ∧ expected ≤ v) ∧
      (asked.Sound ∧ answered.Sound ∧ asked.edits <:+ answered.edits) ∧
      (found = d ∨ ∃ number, Store.opening? d.host asked.edits = some number ∧
        Store.Published answered.edits number found) := by
  have genuine := hs.genuine ht hk
  have synchronized : Synchronized asked answered expected d found := genuine.answers found rfl
  have same := synchronized.uri
  refine ⟨⟨?_, ?_, ?_⟩, synchronized.version, ⟨genuine.asked, genuine.answered, genuine.order⟩,
    synchronized.origin⟩
  · exact congrArg VirtualUri.host same
  · exact congrArg VirtualUri.language same
  · exact congrArg VirtualUri.url same

open Scenario Scenario.Sample

/-- Two waits for the code as of the second host version. A regeneration from the first version is
not enough for them; one from the third is, and the first of them ends. -/
def Scenario.Sample.waiting : Session Script (Option VirtualSnapshot) :=
  (Session.new (script none [])).play Script.collaborators [
    .changed (.stored (.opened hostUrl 1 "@word")),
    .spawned false (.call (.synchronize 2 (.empty codeUri))),
    .spawned false (.call (.synchronize 2 (.empty codeUri))),
    .polled 0, .polled 1,
    .changed (.regenerated (regeneration 1)),
    .polled 0, .polled 1,
    .changed (.regenerated (regeneration 3)),
    .polled 0]

theorem synchronize_result_waiting :
    ∃ t ∈ waiting.threads, ∃ asked answered,
      ⟨.synchronize 2 (.empty codeUri), asked, answered,
        some ⟨codeUri, 2, some 3, "wordword"⟩⟩ ∈ t.calls ∧
      ∃ number, Store.opening? hostUrl asked.edits = some number ∧
        Store.Published answered.edits number ⟨codeUri, 2, some 3, "wordword"⟩ := by
  have reachable : waiting.Reachable Script.collaborators := (Session.Reachable.new _).play _
  have ended : (waiting.threads.flatMap (·.calls)).filterMap Call.synchronized? =
      [(2, .empty codeUri, ⟨codeUri, 2, some 3, "wordword"⟩)] := by decide +kernel
  obtain ⟨k, hk, hsync⟩ := List.mem_filterMap.1 (ended ▸ List.mem_singleton_self _)
  obtain ⟨t, ht, hk⟩ := List.mem_flatMap.1 hk
  rw [Call.eq_of_synchronized? hsync] at hk
  obtain ⟨-, -, -, h | h⟩ := synchronize_result reachable ht hk
  · exact absurd (congrArg VirtualSnapshot.version h) (by decide)
  · exact ⟨t, ht, k.asked, k.answered, hk, h⟩

end PolyglotLsp
