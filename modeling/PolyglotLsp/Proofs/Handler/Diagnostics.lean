import PolyglotLsp.Handler.Diagnostics
import PolyglotLsp.Proofs.Handler.Mapping

/-!
# Diagnostics in replies

The diagnostics of a host are pulled from the servers of its virtual documents, one document after
the other. Servers are asked about a document only after the latest wait was for that document and
ended well; every document is waited for at most once; and each diagnostic that is left has its
range from an answer of the mapping service about the host as it was at the start of the request.
-/

namespace PolyglotLsp

variable {σ : Type} {c : Collaborators σ} {I : List (Call σ) → Op → Prop}
  {calls calls' : List (Call σ)} {m : Moment σ}

/-! ## Waits -/

/-- The expected version, the document and the outcome of a wait. -/
def Call.wait? : Call σ → Option (Int × VirtualSnapshot × Option VirtualSnapshot)
  | ⟨.synchronize expected d, _, _, outcome⟩ => some (expected, d, outcome)
  | _ => none

theorem Call.wait?_eq_none {k : Call σ} (h : k.op.prepares = false) : k.wait? = none := by
  unfold Call.wait?
  split
  · cases h
  · rfl

def Op.awaited? : Op → Option VirtualSnapshot
  | .synchronize _ d => some d
  | _ => none

theorem Call.awaited?_of_wait? {k : Call σ} {w : Int × VirtualSnapshot × Option VirtualSnapshot}
    (h : k.wait? = some w) : k.op.awaited? = some w.2.1 := by
  unfold Call.wait? at h
  split at h
  · cases h
    rfl
  · cases h

def latestWait? (calls : List (Call σ)) :
    Option (Int × VirtualSnapshot × Option VirtualSnapshot) :=
  (calls.filterMap Call.wait?).getLast?

theorem latestWait?_append {k : Call σ} (h : k.wait? = none) :
    latestWait? (calls ++ [k]) = latestWait? calls := by
  simp [latestWait?, h]

/-- Servers may be asked about a virtual document of the host that was taken at the start: the
latest wait was for it and ended well. -/
structure Pulled (h : HostSnapshot) (d : VirtualSnapshot) (uri : Uri) (calls : List (Call σ)) :
    Prop where
  snapshot : snapshot? calls = some h
  waited : ∃ found version, latestWait? calls = some (h.version, d, some found) ∧
    found.uri = d.uri ∧ found.hostVersion = some version ∧ h.version ≤ version
  uri : d.url.toUri? = some uri

theorem Pulled.append {h : HostSnapshot} {d : VirtualSnapshot} {uri : Uri}
    (hp : Pulled h d uri calls) {k : Call σ} (hk : k.op.prepares = false) :
    Pulled h d uri (calls ++ [k]) := by
  refine ⟨snapshot?_later hp.snapshot (List.prefix_append ..), ?_, hp.uri⟩
  rw [latestWait?_append (Call.wait?_eq_none hk)]
  exact hp.waited

/-- What a rule must allow for one virtual document: to wait for it once, to ask about it after a
wait that ended well, and all that has nothing to do with either. -/
structure AllowsPull (I : List (Call σ) → Op → Prop) (h : HostSnapshot) (d : VirtualSnapshot) :
    Prop where
  free : Free I
  wait : ∀ {calls}, snapshot? calls = some h →
    (∀ k ∈ calls, ∀ w, k.wait? = some w → w.2.1.uri ≠ d.uri) → I calls (.synchronize h.version d)
  ask : ∀ {calls uri contentType} {r : DiagnosticRequest}, Pulled h d uri calls → r.uri = uri →
    I calls (.askAll .diagnosticReport "textDocument/diagnostic" contentType (.ok r.toJson))

/-- What a rule must allow for all virtual documents of a host. -/
structure AllowsDiagnostics (I : List (Call σ) → Op → Prop) (r : DiagnosticRequest) : Prop where
  host : ∀ url, I [] (.host url)
  pull : ∀ {h d}, r.uri.toUrl? = some h.url → d ∈ h.virtuals → d.uri.host = h.url → AllowsPull I h d

/-- A pull waits for no other document. -/
theorem AllowsPull.only {h : HostSnapshot} {d : VirtualSnapshot} (hI : AllowsPull I h d) :
    AllowsPull (fun calls o => I calls o ∧ ∀ d', o.awaited? = some d' → d' = d) h d where
  free calls o ha hp own := by
    refine ⟨hI.free calls o ha hp own, fun d' hd' => ?_⟩
    unfold Op.awaited? at hd'
    split at hd'
    · cases hp
    · cases hd'
  wait hs hfirst := ⟨hI.wait hs hfirst, fun d' hd' => (Option.some.inj hd').symm⟩
  ask hp hr := by
    refine ⟨hI.ask hp hr, fun d' hd' => ?_⟩
    cases hd'

/-- What the loop over a host's virtual documents keeps: only documents that are done have been
waited for, and what was found lies in the host as it was at the start. -/
structure PulledUpTo (h : HostSnapshot) (done : List VirtualSnapshot)
    (found : List (List Diagnostic)) (calls : List (Call σ)) : Prop where
  snapshot : snapshot? calls = some h
  waits : ∀ k ∈ calls, ∀ w, k.wait? = some w → w.2.1 ∈ done
  found : ∀ ds ∈ found, ∀ x ∈ ds, AtStart calls x.range

theorem PulledUpTo.next {h : HostSnapshot} {done : List VirtualSnapshot}
    {found : List (List Diagnostic)} (hi : PulledUpTo h done found calls) {d : VirtualSnapshot}
    {ds : List Diagnostic} {more : List (Call σ)}
    (hmore : ∀ k ∈ more, ∀ d', k.op.awaited? = some d' → d' = d)
    (hds : ∀ x ∈ ds, AtStart (calls ++ more) x.range) :
    PulledUpTo h (done ++ [d]) (found ++ [ds]) (calls ++ more) := by
  have hp : calls <+: calls ++ more := List.prefix_append ..
  refine ⟨snapshot?_later hi.snapshot hp, fun k hk w hw => ?_, fun ds' hds' x hx => ?_⟩
  · rcases List.mem_append.1 hk with hk | hk
    · exact List.mem_append_left _ (hi.waits k hk w hw)
    · rw [hmore k hk _ (Call.awaited?_of_wait? hw)]
      exact List.mem_append_right _ (List.mem_singleton_self d)
  · rcases List.mem_append.1 hds' with hds' | hds'
    · exact (hi.found ds' hds' x hx).later hp
    · rw [List.mem_singleton.1 hds'] at hx
      exact hds x hx

namespace Handler

theorem wp_remapRelated (hI : Free I) (related : List RelatedInformation) :
    (remapRelated related).wp c I (fun _ _ _ => True) calls m := by
  simp only [remapRelated, Action.wp_bind, Action.wp_pure]
  refine Action.wp_mapM (fun _ _ _ _ => True) related trivial ?_
  intro _ r _ _ calls' m' _ _
  simp only [Action.wp_bind, Action.wp_pure]
  exact Action.wp_mono (Mapping.wp_remapLocations hI [r.location]) fun _ _ _ _ _ => trivial

theorem wp_placeDiagnostic (hI : Free I) (d : Diagnostic) (range : Option Range) :
    (placeDiagnostic d range).wp c I (fun placed _ _ => ∀ d', placed = some d' →
      range = some d'.range) calls m := by
  unfold placeDiagnostic
  split
  · simp
  · next range =>
    simp only [Action.wp_bind, Action.wp_pure, Option.some.injEq]
    have placed : ∀ related, ∀ d' : Diagnostic, { d with range, related } = d' →
        range = d'.range := by
      rintro related d' rfl
      rfl
    cases d.related with
    | none => simp
    | some related =>
      simp only [Option.mapM_some, Action.wp_map]
      exact Action.wp_mono (wp_remapRelated hI related) fun related' _ _ _ _ => placed related'

theorem wp_placeDiagnostics (hI : Free I) (diagnostics : List Diagnostic)
    (ranges : List (Option Range)) :
    ((diagnostics.zip ranges).mapM fun (d, range) => placeDiagnostic d range).wp c I
      (fun placed _ _ => ∀ d, some d ∈ placed → some d.range ∈ ranges) calls m := by
  refine Action.wp_mapM (fun _ placed _ _ => ∀ d : Diagnostic, some d ∈ placed →
    some d.range ∈ ranges)
    (diagnostics.zip ranges) (by simp) ?_
  rintro done ⟨d, range⟩ rest placed calls' m' hzip hplaced
  refine Action.wp_mono (wp_placeDiagnostic hI d range) fun placed' _ _ _ hrange d' hd' => ?_
  rcases List.mem_append.1 hd' with hd' | hd'
  · exact hplaced d' hd'
  · have hmem : (d, range) ∈ diagnostics.zip ranges := by simp [hzip]
    rw [← hrange d' (List.mem_singleton.1 hd').symm]
    exact (List.of_mem_zip hmem).2

/-- One virtual document, which has not been waited for yet. -/
theorem wp_virtualDiagnostics {h : HostSnapshot} {d : VirtualSnapshot} (hI : AllowsPull I h d)
    (r : DiagnosticRequest) (hs : snapshot? calls = some h)
    (hfirst : ∀ k ∈ calls, ∀ w, k.wait? = some w → w.2.1.uri ≠ d.uri) :
    (virtualDiagnostics h r d).wp c I (fun found calls' _ => ∀ x ∈ found, AtStart calls' x.range)
      calls m := by
  simp only [virtualDiagnostics, Action.wp_bind]
  refine Action.wp_call (hI.wait hs hfirst) fun m₁ outcome hk => ?_
  rcases outcome with _ | found
  · simp
  obtain ⟨huri, ⟨version, hversion, hle⟩, -⟩ := hk.answers found rfl
  simp only [Action.wp_bind]
  refine Projection.wp_serverUri found.url fun uri hu => ?_
  have pulled : Pulled h d uri (calls ++ [⟨.synchronize h.version d, m, m₁, some found⟩]) := by
    refine ⟨snapshot?_later hs (List.prefix_append ..), ?_, ?_⟩
    · refine ⟨found, version, ?_, huri, hversion, hle⟩
      simp [latestWait?, Call.wait?]
    · rw [← hu]
      exact congrArg (fun v : VirtualUri => v.url.toUri?) huri.symm
  refine Action.wp_call (hI.free _ _ rfl rfl (List.forall_mem_nil _)) fun m₂ contentTypes _ => ?_
  -- while its servers are asked, the latest wait stays the one for this document
  refine Action.wp_mono (Action.wp_mapM (fun _ _ calls' _ => Pulled h d uri calls') contentTypes
    (pulled.append rfl) ?_) ?_
  · intro _ contentType _ _ calls' m' _ hp
    simp only [Action.wp_bind, Action.wp_ofExcept, Action.wp_pure]
    exact Action.wp_call (hI.ask hp rfl) fun _ _ _ _ _ => hp.append rfl
  · intro reports calls₁ m₃ _ hp
    split
    · simp
    simp only [Action.wp_bind]
    refine Action.wp_mono (Mapping.wp_mapRanges hI.free ..) fun mapped calls₂ m₄ hp₂ hfrom => ?_
    rcases mapped with _ | ranges
    · simp
    simp only [Action.wp_bind, Action.wp_pure]
    refine Action.wp_mono (wp_placeDiagnostics hI.free ..) fun placed calls₃ m₅ hp₃ hplaced => ?_
    intro x hx
    obtain ⟨_, hx, rfl⟩ := List.mem_filterMap.1 hx
    exact ((hfrom ranges rfl).atStart hp.snapshot hp₂ (hplaced x hx)).later hp₃

/-- All virtual documents of the host, each of which is waited for once. -/
theorem wp_diagnostics {r : DiagnosticRequest} (hI : AllowsDiagnostics I r) :
    (diagnostics r).wp c I (fun found calls _ => ∀ x ∈ found, AtStart calls x.range) [] m := by
  simp only [diagnostics, Action.wp_bind]
  refine Action.wp_mono (Projection.wp_hostOf r.uri hI.host) ?_
  rintro (_ | h) calls m₁ - hh
  · simp
  obtain ⟨url, hu, rfl, hm₁, hget⟩ := hh h rfl
  rw [hm₁] at hget
  obtain ⟨rfl, hnamed⟩ := Store.named_of_get? hget
  simp only [Action.wp_bind, Action.wp_pure]
  refine Action.wp_mono (Action.wp_mapM (fun done found calls' _ => PulledUpTo h done found calls')
    h.virtuals ⟨rfl, by simp [Call.wait?], by simp⟩ ?_) ?_
  · intro done d rest found calls' m' hvirtuals hi
    have hd : d ∈ h.virtuals := by simp [hvirtuals]
    have hhost : d.uri.host = h.url :=
      Store.host_of_mem_virtualUris (hnamed ▸ List.mem_map_of_mem hd)
    have hnew : ∀ d' ∈ done, d'.uri ≠ d.uri := by
      have distinct := Store.nodup_virtualUris h.url
      rw [← hnamed, hvirtuals, List.map_append, List.map_cons, List.nodup_append] at distinct
      intro d' hd'
      exact distinct.2.2 _ (List.mem_map_of_mem hd') _ List.mem_cons_self
    refine Action.wp_mono (Action.wp_ops (wp_virtualDiagnostics (hI.pull hu hd hhost).only r
      hi.snapshot fun k hk w hw => hnew _ (hi.waits k hk w hw))) ?_
    rintro ds calls'' m'' - ⟨hds, more, rfl, hmore⟩
    exact hi.next hmore hds
  · intro found calls' _ _ hi x hx
    obtain ⟨ds, hds, hx⟩ := List.mem_flatten.1 hx
    exact hi.found ds hds x hx

end Handler

end PolyglotLsp
