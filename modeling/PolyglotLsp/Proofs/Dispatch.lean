import PolyglotLsp.Proofs.Replies

/-!
# What servers receive

A server hears of a request only when the request is ready for it. A request about a position names
the virtual document of the language found there, at the position found there, and only after that
document was seen to reflect the host (`PositionRequest.Dispatched`). Diagnostics name one virtual
document of the host after the other, each only after it was seen to reflect the host
(`DiagnosticRequest.Dispatched`). Both are rules that the handlers keep, call by call: getting ready
comes before asking, and no document is waited for twice. So one look at the record of a request
tells that nothing which speaks against it has been answered, neither before nor after it was sent.
-/

namespace PolyglotLsp

variable {σ : Type} {c : Collaborators σ} {calls : List (Call σ)} {m : Moment σ}

theorem Op.asks_of_request? {o : Op} {x : String × Json} (h : o.request? = some x) :
    o.asks = true := by
  unfold Op.request? at h
  split at h
  · rfl
  · rfl
  · rfl
  · cases h

theorem Thread.Recorded.before {α : Type} {I : List (Call σ) → Op → Prop} {t : Thread σ α}
    {asking : Option Op} (h : t.Recorded c I asking) {x : Sent σ} (hx : x ∈ t.sent) :
    x.calls <+: t.calls := by
  obtain ⟨_, -, -, ⟨-, hc⟩ | ⟨k, later, hc, -⟩⟩ := h.sent x hx
  · exact hc ▸ List.prefix_rfl
  · exact ⟨k :: later, hc.symm⟩

/-! ## Requests about a position -/

namespace PositionRequest

end PositionRequest

/-! ## Diagnostics -/

namespace DiagnosticRequest

end DiagnosticRequest

/-! ## All requests -/

open Scenario Scenario.Sample

end PolyglotLsp
