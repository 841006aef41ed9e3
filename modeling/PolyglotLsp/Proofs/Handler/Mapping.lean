import PolyglotLsp.Proofs.Handler.Projection

/-!
# What comes back to the host

An answer of the mapping service gives ranges of a host at a version if it bears that version's
stamp and the host was open at the version when the answer came (`Call.rangesAt`). Everything that
is taken back to a host comes from such answers: under the expected version where the caller says
which one that is (`Mapping.wp_mapRanges`, `Mapping.wp_mapRange`, `Mapping.wp_remapEdits`), and else
under the version that the host had when the question was asked (`Mapping.wp_mapVirtual`).
-/

namespace PolyglotLsp

variable {σ : Type} {c : Collaborators σ} {I : List (Call σ) → Op → Prop}
  {calls calls' : List (Call σ)} {m : Moment σ}

/-- The ranges that a call gives of a host at a version: those of an answer of the mapping service
with the version's stamp, if the host was open at the version when the answer came. -/
def Call.rangesAt (host : Url) (version : Int) : Call σ → List Range
  | ⟨.mapRanges _ url _, _, answered, some (.ok (some a))⟩ =>
    if url = host ∧ a.hostVersion = some version ∧
      answered.store.hostVersion? host = some version then a.ranges.filterMap id else []
  | ⟨.remapEdits _ url _ _ _, _, answered, some (.ok (some a))⟩ =>
    if url = host ∧ a.hostVersion = some version ∧
      answered.store.hostVersion? host = some version then a.edits.map (·.range) else []
  | _ => []

/-- An answer bears one stamp, so that it gives ranges of one version. -/
theorem Call.version_of_mem_rangesAt {k : Call σ} {host : Url} {version version' : Int}
    {r r' : Range} (h : r ∈ k.rangesAt host version) (h' : r' ∈ k.rangesAt host version') :
    version = version' := by
  have stamped {stamp : Option Int} {open? open?' : Prop} [Decidable open?] [Decidable open?']
      {rs : List Range} {url : Url}
      (h : r ∈ if url = host ∧ stamp = some version ∧ open? then rs else [])
      (h' : r' ∈ if url = host ∧ stamp = some version' ∧ open?' then rs else []) :
      version = version' := by
    split at h
    · next hc =>
      split at h'
      · next hc' => exact Option.some.inj (hc.2.1.symm.trans hc'.2.1)
      · cases h'
    · cases h
  unfold rangesAt at h
  split at h
  · exact stamped h h'
  · exact stamped h h'
  · cases h

namespace Mapping

/-- Ranges of a host at a version, from one answer to a question asked at a moment. -/
structure HostRanges.From (host : Url) (version : Int) (asked : Moment σ) (calls : List (Call σ))
    (found : HostRanges) : Prop where
  stamp : found.hostVersion = version
  given : ∃ k ∈ calls, k.asked = asked ∧ ∀ r, some r ∈ found.ranges → r ∈ k.rangesAt host version

theorem wp_isCurrent (hI : Free I) (host : Url) (stamp : Option Int) (expected : Int) :
    (isCurrent host stamp expected).wp c I (fun b _ _ => b = true →
      stamp = some expected ∧ m.store.hostVersion? host = some expected) calls m := by
  simp only [isCurrent, Action.wp_bind, Action.wp_pure]
  refine Action.wp_call (hI _ _ rfl rfl (List.forall_mem_nil _)) fun answered r hk hb => ?_
  have hr : answered = m ∧ r = m.store.hostVersion? host := hk.answers
  simpa [hr.2] using hb

/-- Ranges come back under the expected version or not at all. -/
theorem wp_mapRanges (hI : Free I) (language : Language) (host : Url) (ranges : List Range)
    (expected : Int) :
    (mapRanges language host ranges expected).wp c I (fun mapped calls' _ =>
      ∀ found, mapped = some found → found.From host expected m calls') calls m := by
  simp only [mapRanges, Action.wp_bind]
  refine Action.wp_call (hI _ _ rfl rfl (List.forall_mem_nil _)) fun answered r _ => ?_
  rcases r with _ | answer
  · simp
  simp only [Action.wp_ofExcept, Action.wp_bind]
  rintro (_ | a) rfl
  · simp
  simp only [Action.wp_bind]
  refine Action.wp_mono (wp_isCurrent hI host a.hostVersion expected) ?_
  rintro (_ | _) calls' m' hp hcurrent
  · simp
  obtain ⟨hstamp, hopen⟩ := hcurrent rfl
  simp only [↓reduceIte]
  split
  · simp only [Action.wp_pure, Option.some.injEq]
    rintro found rfl
    refine ⟨rfl, _, hp.subset (List.mem_append_right _ (List.mem_singleton_self _)), rfl, ?_⟩
    intro r hr
    rw [Call.rangesAt, if_pos ⟨rfl, hstamp, hopen⟩]
    exact List.mem_filterMap.2 ⟨some r, hr, rfl⟩
  · simp

/-- A single range comes back as one of several does. -/
theorem wp_mapRange (hI : Free I) (language : Language) (host : Url) (range : Range)
    (expected : Int) :
    (mapRange language host range expected).wp c I (fun mapped calls' _ =>
      ∀ r, mapped = some r → ∃ k ∈ calls', k.asked = m ∧ r ∈ k.rangesAt host expected)
      calls m := by
  simp only [mapRange, Action.wp_bind]
  refine Action.wp_mono (wp_mapRanges hI language host [range] expected) ?_
  intro mapped calls' m' _ found
  split
  · next first rest version =>
    simp only [Action.wp_pure, Option.some.injEq]
    rintro r rfl
    obtain ⟨-, k, hk, asked, given⟩ := found _ rfl
    exact ⟨k, hk, asked, given first List.mem_cons_self⟩
  · simp

/-- Edits come back under the expected version or not at all. -/
theorem wp_remapEdits (hI : Free I) (language : Language) (host : Url) (edits : List TextEdit)
    (options : Option FormattingOptions) (snippet : Bool) (expected : Int) :
    (remapEdits language host edits options snippet expected).wp c I (fun remapped calls' _ =>
      ∀ e ∈ remapped, ∃ k ∈ calls', e.range ∈ k.rangesAt host expected) calls m := by
  unfold remapEdits
  split
  · simp
  simp only [Action.wp_bind]
  refine Action.wp_call (hI _ _ rfl rfl (List.forall_mem_nil _)) fun answered r _ => ?_
  rcases r with _ | answer
  · simp
  simp only [Action.wp_ofExcept, Action.wp_bind]
  rintro (_ | a) rfl
  · simp
  simp only [Action.wp_bind]
  refine Action.wp_mono (wp_isCurrent hI host a.hostVersion expected) ?_
  rintro (_ | _) calls' m' hp hcurrent
  · simp
  obtain ⟨hstamp, hopen⟩ := hcurrent rfl
  simp only [↓reduceIte, Action.wp_pure]
  intro e he
  refine ⟨_, hp.subset (List.mem_append_right _ (List.mem_singleton_self _)), ?_⟩
  rw [Call.rangesAt, if_pos ⟨rfl, hstamp, hopen⟩]
  exact List.mem_map_of_mem he

end Mapping

/-- A range of the host at the version of the snapshot that was taken at the start. -/
def AtStart (calls : List (Call σ)) (r : Range) : Prop :=
  ∃ h, snapshot? calls = some h ∧ ∃ k ∈ calls, r ∈ k.rangesAt h.url h.version

theorem AtStart.later {r : Range} (h : AtStart calls r) (hp : calls <+: calls') :
    AtStart calls' r := by
  obtain ⟨h, hs, k, hk, hr⟩ := h
  exact ⟨h, snapshot?_later hs hp, k, hp.subset hk, hr⟩

theorem Mapping.HostRanges.From.atStart {h : HostSnapshot} {asked : Moment σ}
    {found : Mapping.HostRanges} (hfrom : found.From h.url h.version asked calls')
    (hs : snapshot? calls = some h) (hp : calls <+: calls') {r : Range}
    (hr : some r ∈ found.ranges) : AtStart calls' r := by
  obtain ⟨k, hk, -, hgiven⟩ := hfrom.given
  exact ⟨h, snapshot?_later hs hp, k, hk, hgiven r hr⟩

namespace Mapping

/-- A location that an answer of the mapping service gave, at the version that the host had when the
question was asked. -/
def Back (calls : List (Call σ)) (l : Location) : Prop :=
  ∃ host version, host.toUri? = some l.uri ∧ ∃ k ∈ calls,
    k.asked.store.hostVersion? host = some version ∧ l.range ∈ k.rangesAt host version

theorem Back.later {l : Location} (h : Back calls l) (hp : calls <+: calls') : Back calls' l := by
  obtain ⟨host, version, hu, k, hk, hrest⟩ := h
  exact ⟨host, version, hu, k, hp.subset hk, hrest⟩

/-- Ranges of a virtual document come back under the version that its host has at the time. -/
theorem wp_mapVirtual (hI : Free I) (url : Url) (ranges : List Range) :
    (mapVirtual url ranges).wp c I (fun mapped calls' _ => ∀ uri found,
      mapped = some (uri, found) → ∀ r, some r ∈ found.ranges → Back calls' ⟨uri, r⟩) calls m := by
  simp only [mapVirtual, mapVirtualRanges, Action.wp_bind, Action.wp_pure]
  refine Action.wp_call (hI _ _ rfl rfl (List.forall_mem_nil _)) fun m₁ resolved hk => ?_
  have hans : m₁ = m ∧ resolved = m.store.resolve? url := hk.answers
  obtain ⟨rfl, -⟩ := hans
  rcases resolved with _ | ⟨host, language⟩
  · simp
  simp only [Action.wp_bind]
  refine Action.wp_call (hI _ _ rfl rfl (List.forall_mem_nil _)) fun m₂ current hk' => ?_
  have hans : m₂ = m₁ ∧ current = m₁.store.hostVersion? host := hk'.answers
  obtain ⟨rfl, hcurrent⟩ := hans
  rcases current with _ | version
  · simp
  simp only [Action.wp_bind, Action.wp_pure]
  refine Action.wp_mono (wp_mapRanges hI language host ranges version) ?_
  intro mapped calls' m' _ hfrom uri found hfound r hr
  simp only [Option.bind_eq_bind, Option.bind_eq_some_iff, Option.map_eq_some_iff] at hfound
  obtain ⟨_, ⟨found, hm, rfl⟩, _, huri, hfound⟩ := hfound
  cases hfound
  obtain ⟨-, k, hmem, hasked, hgiven⟩ := hfrom found hm
  exact ⟨host, version, huri, k, hmem, by rw [hasked, ← hcurrent], hgiven r hr⟩

/-! ## Locations -/

theorem mem_groupLocations {count : Nat} {mapped : Option (Uri × HostRanges)} {l : Location}
    (h : some l ∈ groupLocations count mapped) :
    ∃ found, mapped = some (l.uri, found) ∧ some l.range ∈ found.ranges := by
  unfold groupLocations at h
  split at h
  · next uri found =>
    obtain ⟨r, hr, hl⟩ := List.mem_map.1 h
    obtain ⟨range, rfl, rfl⟩ := Option.map_eq_some_iff.1 hl
    exact ⟨found, rfl, hr⟩
  · simp at h

/-- Every location of the result is an ordinary one of those given, or one of those mapped. -/
theorem mem_place {locations : List Location} {mapped : Table Url (List (Option Location))}
    {l : Location} (h : l ∈ place mapped locations) :
    (l ∈ locations ∧ virtualUrl? l.uri = none) ∨ ∃ e ∈ mapped, some l ∈ e.2 := by
  induction locations generalizing mapped with
  | nil => cases h
  | cons l' rest ih =>
    have later {mapped'} (h : l ∈ place mapped' rest)
        (hm : ∀ e ∈ mapped', some l ∈ e.2 → ∃ e ∈ mapped, some l ∈ e.2) :
        (l ∈ l' :: rest ∧ virtualUrl? l.uri = none) ∨ ∃ e ∈ mapped, some l ∈ e.2 := by
      rcases ih h with ⟨hl, hu⟩ | ⟨e, he, hle⟩
      · exact .inl ⟨List.mem_cons_of_mem _ hl, hu⟩
      · exact .inr (hm e he hle)
    unfold place at h
    split at h
    · next hu =>
      rcases List.mem_cons.1 h with rfl | h
      · exact .inl ⟨List.mem_cons_self, hu⟩
      · exact later h fun e he hle => ⟨e, he, hle⟩
    · next url hu =>
      split at h
      · next r more hget =>
        have hmem := Table.mem_of_get? hget
        rcases List.mem_append.1 h with h | h
        · have hr : r = some l := by simpa using h
          exact .inr ⟨_, hmem, by simp [hr]⟩
        · -- the mapped locations of this document are used up one by one
          refine later h fun e he hle => ?_
          rcases Table.mem_set he with rfl | he
          · exact ⟨_, hmem, List.mem_cons_of_mem _ hle⟩
          · exact ⟨e, he, hle⟩
      · exact later h fun e he hle => ⟨e, he, hle⟩

/-- A location of a result: an ordinary one of those given, or one that came back to a host. -/
def Traced (given : List Location) (calls : List (Call σ)) (l : Location) : Prop :=
  (l ∈ given ∧ virtualUrl? l.uri = none) ∨ Back calls l

theorem Traced.later {given given' : List Location} {l : Location} (h : Traced given calls l)
    (hg : given ⊆ given') (hp : calls <+: calls') : Traced given' calls' l :=
  h.imp (fun ⟨hl, hu⟩ => ⟨hg hl, hu⟩) fun hb => hb.later hp

/-- Locations in virtual documents come back to their hosts, ordinary ones stay. -/
theorem wp_remapLocations (hI : Free I) (locations : List Location) :
    (remapLocations locations).wp c I (fun result calls' _ => ∀ l ∈ result,
      Traced locations calls' l) calls m := by
  simp only [remapLocations, Action.wp_bind, Action.wp_pure]
  refine Action.wp_mono (Action.wp_mapM
    (fun _ groups calls' _ => ∀ e ∈ groups, ∀ l, some l ∈ e.2 → Back calls' l) _ (by simp) ?_) ?_
  · intro _ url _ groups calls' m' _ hgroups
    simp only [Action.wp_bind, Action.wp_pure]
    refine Action.wp_mono (wp_mapVirtual hI url _) fun mapped calls'' _ hp hmapped e he l hl => ?_
    rcases List.mem_append.1 he with he | he
    · exact (hgroups e he l hl).later hp
    · rw [List.mem_singleton.1 he] at hl
      obtain ⟨found, hfound, hr⟩ := mem_groupLocations hl
      exact hmapped l.uri found hfound l.range hr
  · intro groups calls' _ _ hgroups l hl
    exact (mem_place hl).imp_right fun ⟨e, he, hle⟩ => hgroups e he l hle

end Mapping

/-! ## Links and edits -/

/-- The places that a link leads to. -/
def LocationLink.places (l : LocationLink) : List Location :=
  [⟨l.targetUri, l.targetRange⟩, ⟨l.targetUri, l.targetSelectionRange⟩]

/-- The places that edits by document change. -/
def editPlaces (changes : List (Uri × List TextEdit)) : List Location :=
  changes.flatMap fun e => e.2.map fun edit => ⟨e.1, edit.range⟩

def DocumentEdit.places (e : DocumentEdit) : List Location :=
  e.edits.map fun a => ⟨e.uri, a.edit.range⟩

def DocumentChange.places : DocumentChange → List Location
  | .edit e => e.places
  | .resource _ => []

def DocumentChanges.places : DocumentChanges → List Location
  | .edits es => es.flatMap DocumentEdit.places
  | .operations ops => ops.flatMap DocumentChange.places

/-- The places that an edit of the workspace changes. -/
def WorkspaceEdit.places (w : WorkspaceEdit) : List Location :=
  w.changes.toList.flatMap editPlaces ++ w.documentChanges.toList.flatMap DocumentChanges.places

namespace Mapping

/-- A loop over items whose results are traced to the items' own places. -/
theorem wp_mapM_traced {ι β : Type} {f : ι → Action (Option β)} (places : ι → List Location)
    (places' : β → List Location)
    (h : ∀ x calls m, (f x).wp c I (fun y calls' _ => ∀ z, y = some z → ∀ l ∈ places' z,
      Traced (places x) calls' l) calls m) (items : List ι) :
    (items.mapM f).wp c I (fun found calls' _ => ∀ z ∈ found.filterMap id, ∀ l ∈ places' z,
      Traced (items.flatMap places) calls' l) calls m := by
  refine Action.wp_mapM (fun _ found calls' _ => ∀ z ∈ found.filterMap id, ∀ l ∈ places' z,
    Traced (items.flatMap places) calls' l) items (by simp) ?_
  intro done x rest found calls₁ m₁ hitems hfound
  refine Action.wp_mono (h x calls₁ m₁) fun y calls₂ m₂ hp hy z hz l hl => ?_
  simp only [List.mem_filterMap, List.mem_append, List.mem_singleton, id_eq] at hz hfound
  obtain ⟨_, hz | rfl, hz'⟩ := hz
  · exact (hfound z ⟨_, hz, hz'⟩ l hl).later (fun _ h => h) hp
  · refine (hy z hz' l hl).later (fun l' hl' => ?_) List.prefix_rfl
    exact List.mem_flatMap.2 ⟨x, by simp [hitems], hl'⟩

theorem wp_remapLink (hI : Free I) (link : LocationLink) :
    (remapLink link).wp c I (fun result calls' _ => ∀ link', result = some link' →
      ∀ l ∈ link'.places, Traced link.places calls' l) calls m := by
  unfold remapLink
  split
  · next hu =>
    simp only [Action.wp_pure, Option.some.injEq]
    rintro link' rfl l hl
    refine .inl ⟨hl, ?_⟩
    simp only [LocationLink.places, List.mem_cons, List.not_mem_nil, or_false] at hl
    rcases hl with rfl | rfl <;> exact hu
  · simp only [Action.wp_bind]
    refine Action.wp_mono (wp_mapVirtual hI _ _) fun mapped calls' _ _ hmapped => ?_
    split
    · next uri target selection version =>
      simp only [Action.wp_pure, Option.some.injEq]
      rintro link' rfl l hl
      have back := hmapped uri _ rfl
      simp only [LocationLink.places, List.mem_cons, List.not_mem_nil, or_false] at hl
      rcases hl with rfl | rfl
      · exact .inr (back target (by simp))
      · exact .inr (back selection (by simp))
    · simp

theorem wp_remapLinks (hI : Free I) (links : List LocationLink) :
    (remapLinks links).wp c I (fun result calls' _ => ∀ link ∈ result, ∀ l ∈ link.places,
      Traced (links.flatMap LocationLink.places) calls' l) calls m := by
  simp only [remapLinks, Action.wp_bind, Action.wp_pure]
  exact wp_mapM_traced _ _ (fun link _ _ => wp_remapLink hI link) links

theorem mem_moveEdits {edits : List TextEdit} {ranges : List (Option Range)} {e : TextEdit}
    (h : e ∈ moveEdits edits ranges) : some e.range ∈ ranges := by
  obtain ⟨⟨e', r⟩, hz, he⟩ := List.mem_filterMap.1 h
  obtain ⟨range, rfl, rfl⟩ := Option.map_eq_some_iff.1 he
  exact (List.of_mem_zip hz).2

theorem mem_editPlaces_addEdits {changes : List (Uri × List TextEdit)} {uri : Uri}
    {edits : List TextEdit} {l : Location} (h : l ∈ editPlaces (addEdits changes uri edits)) :
    l ∈ editPlaces changes ∨ ∃ e ∈ edits, l = ⟨uri, e.range⟩ := by
  obtain ⟨entry, hentry, hl⟩ := List.mem_flatMap.1 h
  rcases Table.mem_set hentry with rfl | hentry
  · obtain ⟨e, he, rfl⟩ := List.mem_map.1 hl
    rcases List.mem_append.1 he with he | he
    · cases hget : Table.get? changes uri with
      | none => simp [hget] at he
      | some own =>
        rw [hget, Option.getD_some] at he
        refine .inl (List.mem_flatMap.2 ⟨(uri, own), Table.mem_of_get? hget, ?_⟩)
        exact List.mem_map_of_mem he
    · exact .inr ⟨e, he, rfl⟩
  · exact .inl (List.mem_flatMap.2 ⟨entry, hentry, hl⟩)

/-- Edits of virtual documents join those of their hosts, the others stay where they are. -/
theorem wp_remapChanges (hI : Free I) (changes : List (Uri × List TextEdit)) :
    (remapChanges changes).wp c I (fun result calls' _ => ∀ l ∈ editPlaces result,
      Traced (editPlaces changes) calls' l) calls m := by
  refine Action.wp_foldlM (fun done calls' _ => ∀ l ∈ editPlaces done,
    Traced (editPlaces changes) calls' l) changes [] (by simp [editPlaces]) ?_
  rintro ⟨uri, edits⟩ hentry done calls₁ m₁ hdone
  dsimp only
  split
  · next hu =>
    simp only [Action.wp_pure]
    intro l hl
    rcases mem_editPlaces_addEdits hl with hl | ⟨e, he, rfl⟩
    · exact hdone l hl
    · refine .inl ⟨List.mem_flatMap.2 ⟨_, hentry, ?_⟩, hu⟩
      exact List.mem_map_of_mem he
  · simp only [Action.wp_bind]
    refine Action.wp_mono (wp_mapVirtual hI _ _) fun mapped calls₂ m₂ hp hmapped => ?_
    have hdone' l (hl : l ∈ editPlaces done) : Traced (editPlaces changes) calls₂ l :=
      (hdone l hl).later (fun _ h => h) hp
    rcases mapped with _ | ⟨host, found⟩
    · simpa using hdone'
    · simp only [Action.wp_pure]
      intro l hl
      rcases mem_editPlaces_addEdits hl with hl | ⟨e, he, rfl⟩
      · exact hdone' l hl
      · exact .inr (hmapped host found rfl e.range (mem_moveEdits he))

theorem wp_remapDocumentEdit (hI : Free I) (e : DocumentEdit) :
    (remapDocumentEdit e).wp c I (fun result calls' _ => ∀ e', result = some e' →
      ∀ l ∈ e'.places, Traced e.places calls' l) calls m := by
  unfold remapDocumentEdit
  split
  · next hu =>
    simp only [Action.wp_pure, Option.some.injEq]
    rintro e' rfl l hl
    refine .inl ⟨hl, ?_⟩
    obtain ⟨a, -, rfl⟩ := List.mem_map.1 hl
    exact hu
  · simp only [Action.wp_bind]
    refine Action.wp_mono (wp_mapVirtual hI _ _) fun mapped calls' m' _ hmapped => ?_
    rcases mapped with _ | ⟨uri, found⟩
    · simp
    simp only [Action.wp_pure, Option.some.injEq]
    rintro e' rfl l hl
    obtain ⟨a, ha, rfl⟩ := List.mem_map.1 hl
    obtain ⟨⟨a', r⟩, hz, ha⟩ := List.mem_filterMap.1 ha
    obtain ⟨range, rfl, rfl⟩ := Option.map_eq_some_iff.1 ha
    exact .inr (hmapped uri found rfl range (List.of_mem_zip hz).2)

theorem wp_remapDocumentChange (hI : Free I) (d : DocumentChange) :
    (remapDocumentChange d).wp c I (fun result calls' _ => ∀ d', result = some d' →
      ∀ l ∈ d'.places, Traced d.places calls' l) calls m := by
  cases d with
  | edit e =>
    simp only [remapDocumentChange, Action.wp_bind, Action.wp_pure, Option.map_eq_some_iff]
    refine Action.wp_mono (wp_remapDocumentEdit hI e) ?_
    rintro e' calls' m' - he d' ⟨e', rfl, rfl⟩
    exact he e' rfl
  | resource op =>
    simp only [remapDocumentChange, Action.wp_pure]
    intro d' hd' l hl
    split at hd'
    · cases hd'
    · cases hd'
      cases hl

theorem wp_remapDocumentChanges (hI : Free I) (d : DocumentChanges) :
    (remapDocumentChanges d).wp c I (fun result calls' _ => ∀ l ∈ result.places,
      Traced d.places calls' l) calls m := by
  cases d with
  | edits es =>
    simp only [remapDocumentChanges, Action.wp_bind, Action.wp_pure]
    refine Action.wp_mono (wp_mapM_traced _ _ (fun e _ _ => wp_remapDocumentEdit hI e) es) ?_
    intro es' calls' _ _ hes l hl
    obtain ⟨e, he, hl⟩ := List.mem_flatMap.1 hl
    exact hes e he l hl
  | operations ops =>
    simp only [remapDocumentChanges, Action.wp_bind, Action.wp_pure]
    refine Action.wp_mono (wp_mapM_traced _ _ (fun d _ _ => wp_remapDocumentChange hI d) ops) ?_
    intro ops' calls' _ _ hops l hl
    obtain ⟨d, hd, hl⟩ := List.mem_flatMap.1 hl
    exact hops d hd l hl

theorem wp_optionMapM_traced {ι : Type} {f : ι → Action ι} (places : ι → List Location)
    (h : ∀ x calls m, (f x).wp c I (fun y calls' _ => ∀ l ∈ places y,
      Traced (places x) calls' l) calls m) (item : Option ι) :
    (item.mapM f).wp c I (fun found calls' _ => ∀ l ∈ found.toList.flatMap places,
      Traced (item.toList.flatMap places) calls' l) calls m := by
  cases item with
  | none => simp
  | some x =>
    simp only [Option.mapM_some, Action.wp_map]
    refine Action.wp_mono (h x calls m) fun y calls' _ _ hy => ?_
    simpa using hy

/-- An edit of the workspace changes ordinary documents as it did, and hosts where its edits came
back. -/
theorem wp_remapWorkspaceEdit (hI : Free I) (w : WorkspaceEdit) :
    (remapWorkspaceEdit w).wp c I (fun result calls' _ => ∀ l ∈ result.places,
      Traced w.places calls' l) calls m := by
  simp only [remapWorkspaceEdit, Action.wp_bind, Action.wp_pure]
  refine Action.wp_mono (wp_optionMapM_traced editPlaces (fun _ _ _ => wp_remapChanges hI _)
    w.changes) fun changes calls₁ m₁ _ hchanges => ?_
  refine Action.wp_mono (wp_optionMapM_traced DocumentChanges.places
    (fun _ _ _ => wp_remapDocumentChanges hI _) w.documentChanges) ?_
  intro documentChanges calls₂ m₂ hp hdocument l hl
  rcases List.mem_append.1 hl with hl | hl
  · exact (hchanges l hl).later (List.subset_append_left ..) hp
  · exact (hdocument l hl).later (List.subset_append_right ..) List.prefix_rfl

end Mapping

end PolyglotLsp
