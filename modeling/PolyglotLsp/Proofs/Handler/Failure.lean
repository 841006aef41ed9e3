import PolyglotLsp.Proofs.Handler.Diagnostics
import PolyglotLsp.Proofs.Session.Failure
import PolyglotLsp.Proofs.Uri.Expressible

/-!
# Requests about documents whose names are no URIs

Servers know documents by URIs, so that a request fails when the name of a virtual document is none.
That is the only failure of the router's own: a projection and a pull of diagnostics else fail only
with errors that somebody reports (`Projection.ends_resolve`, `Handler.ends_diagnostics`). Whether
it can come depends on the host alone, since either all names of its virtual documents are URIs or
none is (`VirtualUri.isSome_toUri?_iff`).
-/

namespace PolyglotLsp

variable {σ : Type} {c : Collaborators σ} {calls : List (Call σ)} {m : Moment σ}

/-- Somebody who was asked for this request reported an error. -/
def Reported (e : RouterError) (calls : List (Call σ)) : Prop := ∃ k ∈ calls, k.error? = some e

theorem reported_concat {k : Call σ} {e : RouterError} (h : k.error? = some e) :
    Reported e (calls ++ [k]) :=
  ⟨k, List.mem_append_right _ (List.mem_singleton_self k), h⟩

/-- Something has spoken against asking servers. -/
def Refused (calls : List (Call σ)) : Prop := ∃ k ∈ calls, k.refuses = true

theorem refused_concat {k : Call σ} (h : k.refuses = true) : Refused (calls ++ [k]) :=
  ⟨k, List.mem_append_right _ (List.mem_singleton_self k), h⟩

/-- The failure of a request that would have to tell servers of a document by this name. -/
def VirtualUri.refusal (v : VirtualUri) : RouterError :=
  .internal (v.url.text ++ " is not a valid LSP URI")

/-- A request about a host fails because somebody reported an error, or because servers cannot be
told of a virtual document of the host. -/
def FailsAbout (host : Url) (e : RouterError) (calls : List (Call σ)) : Prop :=
  Reported e calls ∨
    (¬ VirtualUri.Expressible host ∧ ∃ v : VirtualUri, v.host = host ∧ e = v.refusal)

theorem Language.mem_embedded {language : Language} (h : language.isEmbedded = true) :
    language ∈ Language.embedded := by
  cases language with
  | razor => cases h
  | html | csharp => decide

/-- An open host has a virtual document of each embedded language. -/
theorem HostSnapshot.exists_virtual? {past : List Store.Event} {url : Url} {h : HostSnapshot}
    (known : (Store.after past).get? url = some h) {language : Language}
    (embedded : language ∈ Language.embedded) : ∃ d, h.virtual? language = some d := by
  obtain ⟨o, ho, rfl⟩ := Option.map_eq_some_iff.1 known
  exact ((Store.accounts past).current (Table.mem_of_get? ho)).exists_virtual? embedded

namespace Mapping

/-- Ranges are mapped unless the mapping service reports an error. -/
theorem ends_mapRanges (language : Language) (host : Url) (ranges : List Range) (expected : Int) :
    (mapRanges language host ranges expected).ends c (fun _ _ _ => True) Reported calls m := by
  simp only [mapRanges, isCurrent, Action.ends_bind]
  refine Action.ends_call fun answered r _ => ?_
  rcases r with _ | answer
  · simp
  simp only [Action.ends_bind, Action.ends_ofExcept]
  refine ⟨?_, ?_⟩
  · rintro (_ | a) rfl
    · simp
    simp only [Action.ends_bind, Action.ends_pure]
    refine Action.ends_call fun answered current _ => ?_
    split
    · split <;> simp
    · simp
  · rintro e rfl
    exact reported_concat rfl

theorem ends_mapVirtual (url : Url) (ranges : List Range) :
    (mapVirtual url ranges).ends c (fun _ _ _ => True) Reported calls m := by
  simp only [mapVirtual, mapVirtualRanges, Action.ends_bind, Action.ends_pure]
  refine Action.ends_call fun answered found _ => ?_
  rcases found with _ | ⟨host, language⟩
  · simp
  simp only [Action.ends_bind]
  refine Action.ends_call fun answered version _ => ?_
  rcases version with _ | expected
  · simp
  simp only [Action.ends_bind, Action.ends_pure]
  exact ends_mapRanges language host ranges expected

theorem ends_remapLocations (locations : List Location) :
    (remapLocations locations).ends c (fun _ _ _ => True) Reported calls m := by
  simp only [remapLocations, Action.ends_bind, Action.ends_pure]
  refine Action.ends_mapM (fun _ _ _ _ => True) _ trivial fun _ url _ _ calls' m' _ _ => ?_
  simp only [Action.ends_bind, Action.ends_pure]
  exact ends_mapVirtual url _

end Mapping

namespace Projection

open VirtualUri

theorem ends_serverUri {uri : Uri} {v : VirtualUri} (named : uri.toUrl? = some v.host) :
    (serverUri v.url).ends c (fun _ _ _ => Expressible v.host) (FailsAbout v.host) calls m := by
  have exact' := isSome_toUri?_iff named
  unfold serverUri
  split
  · next uri' found =>
    rw [found] at exact'
    simpa using exact'
  · next none =>
    rw [none] at exact'
    simpa [FailsAbout, refusal] using .inr ⟨fun h => by simp [h] at exact', v, rfl, rfl⟩

/-- There is no document to ask about only if something speaks against it, and else it is one of the
host's. -/
theorem ends_synchronized {past : List Store.Event} {url : Url} {h : HostSnapshot}
    (known : (Store.after past).get? url = some h) {a : Classification}
    (plain : a.language.isEmbedded = false → Refused calls)
    {E : RouterError → List (Call σ) → Prop} :
    (synchronized h a).ends c (fun u calls' _ => (u = none → Refused calls') ∧
      ∀ url', u = some url' → ∃ v : VirtualUri, v.host = url ∧ v.url = url') E calls m := by
  unfold synchronized
  split
  · next host =>
    simpa using plain (by simpa using host)
  · next embedded =>
    obtain ⟨d, hd⟩ := HostSnapshot.exists_virtual? known
      (Language.mem_embedded (by simpa using embedded))
    obtain ⟨-, hosted, -⟩ := HostSnapshot.uri_of_virtual? known hd
    simp only [hd]
    split
    · simpa using ⟨d.uri, hosted, rfl⟩
    · simp only [Action.ends_bind, Action.ends_pure]
      refine Action.ends_call fun answered r genuine => ⟨fun none => ?_, fun url' some => ?_⟩
      · obtain rfl := Option.map_eq_none_iff.1 none
        exact refused_concat rfl
      · obtain ⟨found, rfl, rfl⟩ := Option.map_eq_some_iff.1 some
        obtain ⟨uri, -⟩ := genuine.answers found rfl
        exact ⟨d.uri, hosted, congrArg VirtualUri.url uri.symm⟩

/-- A place that is not projected has been refused, or somebody reported an error, or servers cannot
be told of the virtual document. -/
theorem ends_resolve {place : Place} {host : Url} (named : place.uri.toUrl? = some host) :
    (resolve place).ends c (fun p calls _ => match p with
      | none => Refused calls
      | some _ => Expressible host) (FailsAbout host) [] m := by
  simp only [resolve, hostOf, named, Action.ends_bind]
  refine Action.ends_call fun m₁ h hk => ?_
  rcases h with _ | h
  · simp only [Action.ends_pure]
    exact refused_concat rfl
  obtain ⟨-, known⟩ : m₁ = m ∧ some h = m.store.get? host := hk.answers
  rw [hk.asked] at known
  obtain ⟨rfl, -⟩ := Store.named_of_get? known.symm
  simp only [Action.ends_bind]
  refine Action.ends_call fun m₂ r _ => ?_
  rcases r with _ | answer
  · simp only [Action.ends_pure]
    exact refused_concat rfl
  simp only [Action.ends_bind, Action.ends_ofExcept]
  refine ⟨?_, ?_⟩
  · rintro (_ | a) rfl
    · simp only [Action.ends_pure]
      exact refused_concat rfl
    simp only [Action.ends_bind]
    refine Action.ends_mono (ends_synchronized known.symm fun plain => ?_) ?_
    · exact refused_concat (by simp [Call.refuses, plain])
    rintro (_ | url) calls₃ m₃ - ⟨refused, hosted⟩
    · simpa using refused rfl
    obtain ⟨v, hv, rfl⟩ := hosted url rfl
    simp only [Action.ends_bind]
    refine Action.ends_call fun m₄ contentTypes _ => ?_
    rw [← hv] at named ⊢
    refine Action.ends_mono (ends_serverUri named) fun uri _ _ _ expressible => ?_
    simpa using expressible
  · rintro e rfl
    exact .inl (reported_concat rfl)

end Projection

/-! ## Diagnostics -/

/-- No wait for a document has ended well. -/
def Idle (calls : List (Call σ)) : Prop := ∀ k ∈ calls, ∀ w, k.wait? = some w → w.2.2 = none

theorem Idle.concat {k : Call σ} (h : Idle calls) (hk : ∀ w, k.wait? = some w → w.2.2 = none) :
    Idle (calls ++ [k]) := by
  intro k' hk'
  rcases List.mem_append.1 hk' with hk' | hk'
  · exact h k' hk'
  · exact List.mem_singleton.1 hk' ▸ hk

namespace Handler

open Mapping VirtualUri

theorem ends_placeDiagnostic (d : Diagnostic) (range : Option Range) :
    (placeDiagnostic d range).ends c (fun _ _ _ => True) Reported calls m := by
  unfold placeDiagnostic
  split
  · simp
  cases d.related with
  | none => simp
  | some related =>
    simp only [Action.ends_bind, Option.mapM_some, Action.ends_map, Action.ends_pure, remapRelated]
    refine Action.ends_mapM (fun _ _ _ _ => True) _ trivial fun _ r _ _ calls' m' _ _ => ?_
    simp only [Action.ends_bind, Action.ends_pure]
    exact ends_remapLocations _

/-- Once a virtual document is ready, its diagnostics fail to come only if somebody reports an error
or servers cannot be told of the document. -/
theorem ends_virtualDiagnostics {uri : Uri} {d : VirtualSnapshot}
    (named : uri.toUrl? = some d.uri.host) (h : HostSnapshot) (r : DiagnosticRequest) :
    (virtualDiagnostics h r d).ends c (fun found calls' _ => Idle calls →
      Expressible d.uri.host ∨ (found = [] ∧ Idle calls')) (FailsAbout d.uri.host) calls m := by
  simp only [virtualDiagnostics, Action.ends_bind]
  refine Action.ends_call fun m₁ outcome hk => ?_
  rcases outcome with _ | found
  · simp only [Action.ends_pure, true_and]
    exact fun idle => .inr (idle.concat (by simp [Call.wait?]))
  obtain ⟨same, -⟩ := hk.answers found rfl
  have same : found.uri = d.uri := same
  rw [← same] at named ⊢
  rw [Action.ends_bind]
  refine Action.ends_mono (Projection.ends_serverUri named) fun uri' calls₁ m₂ _ expressible => ?_
  -- only reported errors are left
  refine Action.ends_mono (Q := fun _ _ _ => True)
    (Action.ends_mono_error (E := Reported) ?_ fun _ _ => .inl) fun _ _ _ _ _ _ => .inl expressible
  simp only [Action.ends_bind]
  refine Action.ends_call fun m₃ contentTypes _ => ?_
  refine Action.ends_mono (Action.ends_mapM (fun _ _ _ _ => True) contentTypes trivial ?_) ?_
  · intro _ contentType _ _ calls' m' _ _
    simp only [Action.ends_bind, Action.ends_ofExcept, Action.ends_pure]
    refine Action.ends_call fun m₃ reports _ => ⟨fun _ _ => trivial, ?_⟩
    rintro e rfl
    exact reported_concat rfl
  · intro reports calls₁ m₃ _ _
    split
    · simp
    simp only [Action.ends_bind]
    refine Action.ends_mono (ends_mapRanges ..) fun mapped calls₂ m₄ _ _ => ?_
    rcases mapped with _ | ranges
    · simp
    simp only [Action.ends_bind, Action.ends_pure]
    exact Action.ends_mapM (fun _ _ _ _ => True) _ trivial fun _ x _ _ _ _ _ _ =>
      ends_placeDiagnostic x.1 x.2

/-- The diagnostics of a host fail to come only if somebody reports an error or servers cannot be
told of a virtual document. Where they cannot, all that comes is nothing, and only while no document
is ready. -/
theorem ends_diagnostics {r : DiagnosticRequest} {host : Url}
    (named : r.uri.toUrl? = some host) :
    (diagnostics r).ends c (fun found calls _ => Expressible host ∨ (found = [] ∧ Idle calls))
      (FailsAbout host) [] m := by
  simp only [diagnostics, Projection.hostOf, named, Action.ends_bind]
  refine Action.ends_call fun m₁ h hk => ?_
  have start {h : Option HostSnapshot} : Idle [(⟨.host host, m, m₁, h⟩ : Call σ)] := by
    simp [Idle, Call.wait?]
  rcases h with _ | h
  · simp only [Action.ends_pure, true_and]
    exact .inr start
  obtain ⟨-, known⟩ : m₁ = m ∧ some h = m.store.get? host := hk.answers
  rw [hk.asked] at known
  obtain ⟨rfl, virtuals⟩ := Store.named_of_get? known.symm
  simp only [Action.ends_bind, Action.ends_pure]
  refine Action.ends_mapM (fun _ found calls' _ =>
    Expressible h.url ∨ (found.flatten = [] ∧ Idle calls')) h.virtuals (.inr ⟨rfl, start⟩) ?_
  intro done d rest found calls' m' whole kept
  have mem : d.uri ∈ h.virtuals.map (·.uri) := List.mem_map_of_mem (by simp [whole])
  have hosted : d.uri.host = h.url := Store.host_of_mem_virtualUris (virtuals ▸ mem)
  rw [← hosted] at named kept ⊢
  refine Action.ends_mono (ends_virtualDiagnostics named h r) fun ds calls'' m'' _ step => ?_
  rcases kept with expressible | ⟨nothing, idle⟩
  · exact .inl expressible
  · refine (step idle).imp_right ?_
    rintro ⟨rfl, idle⟩
    exact ⟨by simp [nothing], idle⟩

end Handler

/-! ## The names and the requests -/

/-- The names of a host's virtual documents are URIs exactly if the host is expressible. If it is,
requests about a position and for diagnostics fail only with errors that somebody reports. If it is
not, no position is projected, and diagnostics come only to nothing, and that only while no document
is ready. -/
theorem VirtualUri.expressible_exact {uri : Uri} {v : VirtualUri}
    (named : uri.toUrl? = some v.host) :
    (v.url.toUri?.isSome = true ↔ Expressible v.host) ∧
      (∀ position, (Projection.resolve ⟨uri, position⟩).Concludes c
        (fun p calls => match p with
          | none => Refused calls
          | some _ => Expressible v.host) (FailsAbout v.host)) ∧
      ∀ r : DiagnosticRequest, r.uri = uri → (Handler.diagnostics r).Concludes c
        (fun found calls => Expressible v.host ∨ (found = [] ∧ Idle calls))
        (FailsAbout v.host) := by
  refine ⟨isSome_toUri?_iff named, fun position => ?_, fun r about => ?_⟩
  · exact Action.ends_in_sessions fun m => Projection.ends_resolve named
  · exact Action.ends_in_sessions fun m => Handler.ends_diagnostics (about ▸ named)

/-! ## Names in the sample -/

open Scenario Scenario.Sample

namespace Scenario.Sample

/-- A host is open, its virtual documents are ready, and a program runs. -/
def working {α : Type} (host : Url) (x : Action α) : Session Script (Except RouterError α) :=
  (Session.new (script (some 1) [])).play Script.collaborators [
    .changed (.stored (.opened host 1 "@word")),
    .changed (.regenerated ⟨host, .html, 1, []⟩),
    .changed (.regenerated ⟨host, .csharp, 1, [⟨0, 0, "word"⟩]⟩),
    .spawned false x, .polled 0]

variable {α : Type} {host : Url} {x : Action α}

theorem reachable_working : (working host x).Reachable Script.collaborators :=
  (Session.Reachable.new _).play _

theorem program_working {t : Thread Script (Except RouterError α)}
    (ht : t ∈ (working host x).threads) : t.program = x :=
  List.mem_singleton.1 (Session.program_mem_begun ht)

/-- A host whose file name has brackets in it. -/
def routeUri : Uri := ⟨"file:///p/%5Bid%5D.razor", by decide +kernel⟩

def routeUrl : Url :=
  ⟨"file".toList, some ⟨[], [], none⟩, .segments ["p".toList, "%5Bid%5D.razor".toList], none, none⟩

def routeCode : VirtualUri where
  host := routeUrl
  language := .csharp
  url := { routeUrl with path := .segments ["p".toList, "[id].razor__virtual.cs".toList] }
  derived := by decide +kernel

end Scenario.Sample

/-- The name of the sample's code is a URI, and a position in it is projected. -/
theorem VirtualUri.expressible_exact_code :
    hostUri.toUrl? = some codeUri.host ∧ codeUri.url.toUri?.isSome = true ∧
      ∃ t ∈ (working hostUrl (Projection.resolve ⟨hostUri, ⟨0, 1⟩⟩)).threads,
        ∃ p, t.reply? = some (some p) ∧ p.uri = codeFile ∧ Expressible codeUri.host := by
  have named : hostUri.toUrl? = some codeUri.host := by decide +kernel
  have uris : (working hostUrl (Projection.resolve ⟨hostUri, ⟨0, 1⟩⟩)).threads.map
      (fun t => t.reply?.map fun p => p.map (·.uri)) = [some (some codeFile)] := by decide +kernel
  obtain ⟨exact', projects, -⟩ := expressible_exact (c := Script.collaborators) named
  obtain ⟨t, ht, replied⟩ := List.mem_map.1 (uris ▸ List.mem_singleton_self _)
  obtain ⟨_, reply, found⟩ := Option.map_eq_some_iff.1 replied
  obtain ⟨p, rfl, uri⟩ := Option.map_eq_some_iff.1 found
  have expressible := (projects _ _ reachable_working t ht (program_working ht)).1 _ reply
  exact ⟨named, exact'.2 expressible, t, ht, p, reply, uri, expressible⟩

/-- A URI names an open host, all of whose virtual documents are ready. Their names are no URIs, and
requests about a position and for diagnostics fail. -/
theorem VirtualUri.route_not_expressible :
    routeUri.toUrl? = some routeCode.host ∧ routeCode.url.toUri? = none ∧
      routeCode.url.text = "file:///p/[id].razor__virtual.cs" ∧
      (working routeUrl (Projection.resolve ⟨routeUri, ⟨0, 1⟩⟩)).threads.map (·.failure?) =
        [some (.internal "file:///p/[id].razor__virtual.cs is not a valid LSP URI")] ∧
      (working routeUrl (Handler.diagnostics ⟨routeUri, none, none, none, none⟩)).threads.map
          (·.failure?) =
        [some (.internal "file:///p/[id].razor__virtual.html is not a valid LSP URI")] := by
  decide +kernel

end PolyglotLsp
