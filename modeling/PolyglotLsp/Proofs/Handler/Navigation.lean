import PolyglotLsp.Handler.Navigation
import PolyglotLsp.Proofs.Handler.Mapping

/-!
# Hovers, highlights, definitions, references and renames in replies

What the replies to requests about a position hold of hosts. Hovers, highlights, linked ranges and
formatting edits hold ranges of the host as it was at the start of the request. Definitions,
references and renames hold places that servers gave in ordinary documents, and places that came
back to a host under the version which the host had when the question was asked.
-/

namespace PolyglotLsp

variable {σ : Type} {c : Collaborators σ} {I : List (Call σ) → Op → Prop}
  {calls calls' : List (Call σ)} {m : Moment σ}

/-! ## Ranges of the requested host -/

namespace Handler

theorem wp_hover {r : PositionRequest} (hI : Allows I r) :
    (hover r).wp c I (fun reply calls _ => ∀ v, reply = some v → ∀ range, v.range = some range →
      AtStart calls range) [] m := by
  refine Projection.wp_projecting hI (fun _ _ => nofun) fun p _ _ calls m hp => ?_
  simp only [Action.wp_bind]
  refine Projection.wp_forwarding hI hp rfl .hover fun found calls m hs => ?_
  rcases found with _ | answer
  · simp
  dsimp only
  split
  · next hr =>
    simp only [Action.wp_pure, Option.some.injEq]
    rintro v rfl range hrange
    simp [hr] at hrange
  · simp only [Action.wp_bind]
    refine Action.wp_mono (Mapping.wp_mapRanges hI.free ..) fun mapped calls' m' hprefix hfrom => ?_
    rcases mapped with _ | found
    · simp
    simp only [Action.wp_pure, Option.some.injEq]
    rintro v rfl range hrange
    refine (hfrom found rfl).atStart hs hprefix ?_
    simp only [Option.join_eq_some_iff] at hrange
    exact List.mem_of_head? hrange

theorem wp_highlight {r : PositionRequest} (hI : Allows I r) :
    (highlight r).wp c I (fun reply calls _ => ∀ v, reply = some v → ∀ h ∈ v,
      AtStart calls h.range) [] m := by
  refine Projection.wp_projecting hI (fun _ _ => nofun) fun p _ _ calls m hp => ?_
  simp only [Action.wp_bind]
  refine Projection.wp_forwarding hI hp rfl .highlights fun found calls m hs => ?_
  rcases found with _ | answer
  · simp
  dsimp only
  split
  · simp
  · simp only [Action.wp_bind]
    refine Action.wp_mono (Mapping.wp_mapRanges hI.free ..) fun mapped calls' m' hprefix hfrom => ?_
    rcases mapped with _ | found
    · simp
    simp only [Action.wp_pure, Option.some.injEq]
    rintro v rfl h hh
    obtain ⟨⟨_, range⟩, hz, hr⟩ := List.mem_filterMap.1 hh
    obtain ⟨range, rfl, rfl⟩ := Option.map_eq_some_iff.1 hr
    exact (hfrom found rfl).atStart hs hprefix (List.of_mem_zip hz).2

theorem eq_map_some_of_mapM_id {β : Type} {items : List (Option β)} {values : List β}
    (h : items.mapM id = some values) : items = values.map some := by
  induction items generalizing values with
  | nil =>
    simp only [List.mapM_nil, Option.pure_def, Option.some.injEq] at h
    simp [← h]
  | cons item rest ih =>
    simp only [List.mapM_cons, id_eq, Option.pure_def, Option.bind_eq_bind,
      Option.bind_eq_some_iff, Option.some.injEq] at h
    obtain ⟨value, rfl, values, hrest, rfl⟩ := h
    rw [ih hrest, List.map_cons]

theorem wp_linkedEditing {r : PositionRequest} (hI : Allows I r) :
    (linkedEditing r).wp c I (fun reply calls _ => ∀ v, reply = some v → ∀ range ∈ v.ranges,
      AtStart calls range) [] m := by
  refine Projection.wp_projecting hI (fun _ _ => nofun) fun p _ _ calls m hp => ?_
  split
  · simp
  simp only [Action.wp_bind]
  refine Projection.wp_forwarding hI hp rfl .linkedRanges fun found calls m hs => ?_
  rcases found with _ | answer
  · simp
  simp only [Action.wp_bind]
  refine Action.wp_mono (Mapping.wp_mapRanges hI.free ..) fun mapped calls' m' hprefix hfrom => ?_
  rcases mapped with _ | found
  · simp
  simp only [Action.wp_pure, Option.map_eq_some_iff]
  rintro v ⟨ranges, hranges, rfl⟩ range hrange
  refine (hfrom found rfl).atStart hs hprefix ?_
  rw [eq_map_some_of_mapM_id hranges]
  exact List.mem_map_of_mem hrange

theorem wp_onTypeFormatting {r : PositionRequest} (hI : Allows I r) (options : FormattingOptions) :
    (onTypeFormatting r options).wp c I (fun reply calls _ => ∀ v, reply = some v → ∀ e ∈ v,
      AtStart calls e.range) [] m := by
  refine Projection.wp_projecting hI (fun _ _ => nofun) fun p _ _ calls m hp => ?_
  split
  · simp
  simp only [Action.wp_bind]
  refine Projection.wp_forwarding hI hp rfl .edits fun found calls m hs => ?_
  rcases found with _ | answer
  · simp
  simp only [Action.wp_bind]
  refine Action.wp_mono (Mapping.wp_remapEdits hI.free ..) fun edits calls' m' hprefix hedits => ?_
  simp only [Action.wp_pure]
  intro v hv e he
  split at hv
  · cases hv
  · cases hv
    obtain ⟨k, hk, hr⟩ := hedits e he
    exact ⟨p.host, snapshot?_later hs hprefix, k, hk, hr⟩

end Handler

/-! ## Places in any document -/

def Definition.places : Definition → List Location
  | .scalar l => [l]
  | .locations ls => ls
  | .links ls => ls.flatMap LocationLink.places

/-- The places in an answer of a server. -/
def Shape.places : (s : Shape) → s.Val → List Location
  | .definition => Definition.places
  | .locations => id
  | .workspaceEdit => WorkspaceEdit.places
  | _ => fun _ => []

/-- The places that servers offered in a call: in the answer that counts, or in what they streamed
before. -/
def Call.offers : Call σ → List Location
  | ⟨.askFirst shape .., _, _, .ok (some answer)⟩ => shape.places answer.value
  | ⟨.stopListening _, _, _, payloads⟩ => Handler.streamedLocations payloads
  | _ => []

/-- A place in the reply to a request about an open host: a server offered it in an ordinary
document, or it came back to a host. -/
def Arrived (calls : List (Call σ)) (l : Location) : Prop :=
  ∃ h, snapshot? calls = some h ∧ Mapping.Traced (calls.flatMap Call.offers) calls l

theorem Mapping.Traced.arrived {h : HostSnapshot} {given : List Location} {l : Location}
    (ht : Mapping.Traced given calls' l) (hs : snapshot? calls = some h) (hp : calls <+: calls')
    (hg : given ⊆ calls.flatMap Call.offers) : Arrived calls' l := by
  refine ⟨h, snapshot?_later hs hp, ht.later (fun l' hl' => ?_) List.prefix_rfl⟩
  obtain ⟨k, hk, hl'⟩ := List.mem_flatMap.1 (hg hl')
  exact List.mem_flatMap.2 ⟨k, hp.subset hk, hl'⟩

namespace Handler

/-- Once servers have answered, the places of the answer that counts are among those offered. -/
theorem wp_offering {r : PositionRequest} (hI : Allows I r) {p : Projection} {v : VirtualUri}
    {a : Classification} (hp : Projected r.place p v a calls) (shape : Shape)
    {Q : Post σ (Option (Tagged shape.Val))}
    (h : ∀ found calls m, snapshot? calls = some p.host →
      (∀ answer, found = some answer →
        shape.places answer.value ⊆ calls.flatMap Call.offers) → Q found calls m) :
    (p.forward shape r).wp c I Q calls m := by
  refine p.wp_forward shape r (hI.ask hp rfl) fun answered found => ?_
  refine h found _ answered (snapshot?_later hp.snapshot (List.prefix_append ..)) ?_
  rintro answer rfl l hl
  simp [Call.offers, hl]

/-- A definition leads to the places it led to, and to hosts where its places came back. -/
theorem wp_remapDefinition (hI : Free I) (d : Definition) :
    (remapDefinition d).wp c I (fun d' calls' _ => ∀ l ∈ d'.places,
      Mapping.Traced d.places calls' l) calls m := by
  cases d with
  | scalar l =>
    simp only [remapDefinition, Action.wp_bind, Action.wp_pure]
    exact Mapping.wp_remapLocations hI [l]
  | locations ls =>
    simp only [remapDefinition, Action.wp_bind, Action.wp_pure]
    exact Mapping.wp_remapLocations hI ls
  | links ls =>
    simp only [remapDefinition, Action.wp_bind, Action.wp_pure]
    refine Action.wp_mono (Mapping.wp_remapLinks hI _) fun ls' calls' m' _ hls => ?_
    -- the origin of a link is not among its places
    rw [List.flatMap_map] at hls
    refine Action.wp_call (hI _ _ rfl rfl (List.forall_mem_nil _)) fun answered capabilities _ => ?_
    intro l hl
    suffices traced : Mapping.Traced (Definition.links ls).places calls' l from
      traced.later (fun _ h => h) (List.prefix_append ..)
    split at hl
    · obtain ⟨link, hlink, hl⟩ := List.mem_flatMap.1 hl
      exact hls link hlink l hl
    · obtain ⟨link, hlink, rfl⟩ := List.mem_map.1 hl
      exact hls link hlink _ (by simp [LocationLink.places, linkLocation])

theorem wp_definition {r : PositionRequest} (hI : Allows I r) :
    (definition r).wp c I (fun reply calls _ => ∀ v, reply = some v → ∀ l ∈ v.places,
      Arrived calls l) [] m := by
  refine Projection.wp_projecting hI (fun _ _ => nofun) fun p _ _ calls m hp => ?_
  simp only [Action.wp_bind]
  refine wp_offering hI hp .definition fun found calls m hs hoffered => ?_
  rcases found with _ | answer
  · simp
  simp only [Action.wp_bind]
  refine Action.wp_mono (wp_remapDefinition hI.free answer.value) fun d calls' m' hprefix hd => ?_
  simp only [Action.wp_pure]
  intro v hv l hl
  split at hv
  · cases hv
  · cases hv
    exact (hd l hl).arrived hs hprefix (hoffered answer rfl)

theorem wp_rename {r : PositionRequest} (hI : Allows I r) :
    (rename r).wp c I (fun reply calls _ => ∀ v, reply = some v → ∀ l ∈ v.places,
      Arrived calls l) [] m := by
  refine Projection.wp_projecting hI (fun _ _ => nofun) fun p _ _ calls m hp => ?_
  split
  · simp
  simp only [Action.wp_bind]
  refine wp_offering hI hp .workspaceEdit fun found calls m hs hoffered => ?_
  rcases found with _ | answer
  · simp
  simp only [Action.wp_bind]
  refine Action.wp_mono (Mapping.wp_remapWorkspaceEdit hI.free answer.value) ?_
  intro edit calls' m' hprefix hedit
  simp only [Action.wp_pure, Option.some.injEq]
  rintro v rfl l hl
  exact (hedit l hl).arrived hs hprefix (hoffered answer rfl)

/-- What is left in a listener when it stops counts as offered. -/
theorem wp_stopListening (hI : Free I) {listening : Option (Nat × Token)}
    (own : ∀ id token, listening = some (id, token) → ∃ k ∈ calls, k.listener? = some id) :
    (stopListening listening).wp c I (fun payloads calls' _ =>
      streamedLocations payloads ⊆ calls'.flatMap Call.offers) calls m := by
  rcases listening with _ | ⟨id, token⟩
  · simp [stopListening, streamedLocations]
  · have own : StopsOwn calls (.stopListening id) := by
      intro id' stopped
      rw [List.mem_singleton.1 stopped]
      exact own id token rfl
    refine Action.wp_call (hI _ _ rfl rfl own) fun answered payloads _ l hl => ?_
    simp [Call.offers, hl]

theorem wp_references {r : PositionRequest} (hI : Allows I r) :
    (references r).wp c I (fun reply calls _ => ∀ v, reply = some v → ∀ l ∈ v,
      Arrived calls l) [] m := by
  refine Projection.wp_projecting hI (fun _ _ => nofun) fun p _ _ calls m hp => ?_
  simp only [Action.wp_bind]
  refine Action.wp_call (hI.free _ _ rfl rfl (List.forall_mem_nil _)) fun m₁ listening _ => ?_
  have hp := hp.append (k := ⟨.listen, m, m₁, listening⟩) rfl rfl
  refine Action.wp_call (hI.ask hp rfl) fun m₂ outcome _ => ?_
  refine Action.wp_mono (wp_stopListening hI.free fun id token given => ?_) ?_
  · subst given
    exact ⟨⟨.listen, m, m₁, some (id, token)⟩, by simp, rfl⟩
  intro payloads calls' m₃ hprefix hstreamed
  rw [Action.wp_ofExcept]
  rintro answer rfl
  split
  · simp
  simp only [Action.wp_bind]
  refine Action.wp_mono (Mapping.wp_remapLocations hI.free _) fun ls calls'' m₄ hprefix' hls => ?_
  simp only [Action.wp_pure, Option.some.injEq]
  rintro v rfl l hl
  have hs := snapshot?_later hp.snapshot ((List.prefix_append ..).trans hprefix)
  refine (hls l hl).arrived hs hprefix' fun l' hl' => ?_
  rcases List.mem_append.1 hl' with hl' | hl'
  · exact hstreamed hl'
  · cases answer with
    | none => cases hl'
    | some answer =>
      refine List.mem_flatMap.2 ⟨_, hprefix.subset List.mem_concat_self, ?_⟩
      exact hl'

end Handler

end PolyglotLsp
