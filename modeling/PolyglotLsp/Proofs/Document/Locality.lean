import PolyglotLsp.Proofs.Document.ReverseIndex

/-!
# Hosts do not disturb each other

Every event of the store is about one host. What the store knows about any other host stays as it
is (`documents_get?_step_of_ne`), also when the two hosts' virtual documents share their names. The
reverse index is common to all hosts, and there two hosts can get into each other's way: one takes
an entry over, or removes it. But an entry never outlives the opening it was made for, so that
whatever is found leads to an open host that has a virtual document of that name
(`indexed_of_resolve?`).
-/

namespace PolyglotLsp.Store

/-- The host that an event is about. -/
def Event.host : Event → Url
  | .opened url _ _ | .edited url _ _ | .closed url => url
  | .regenerated r => r.host

/-! ## One host's events and another host's documents -/

theorem documents_get?_step_of_ne (s : Store) {e : Event} {host : Url} (h : e.host ≠ host) :
    (s.step e).documents.get? host = s.documents.get? host := by
  cases e with
  | opened url version text =>
    have other : url ≠ host := h
    simp only [step, openDocument, Table.get?_set, documents_get?_close, if_neg other]
  | edited url version changes =>
    have other : url ≠ host := h
    rcases step_edited s url version changes with hs | ⟨o, text, -, hs⟩
    · rw [hs]
    · rw [hs, Table.get?_set, if_neg other]
  | regenerated r =>
    have other : r.host ≠ host := h
    rcases step_regenerated s r with ⟨hs, -⟩ | ⟨o, d₀, d, -, -, -, -, -, hs⟩
    · rw [hs]
    · rw [hs, Table.get?_set, if_neg other]
  | closed url =>
    have other : url ≠ host := h
    simp only [step, documents_get?_close, if_neg other]

/-- Two stores say the same about a host. -/
structure AgreeOn (host : Url) (s s' : Store) : Prop where
  get? : s'.get? host = s.get? host
  hostVersion? : s'.hostVersion? host = s.hostVersion? host
  virtual? : ∀ language, s'.virtual? host language = s.virtual? host language

theorem agreeOn_step (s : Store) {e : Event} {host : Url} (h : e.host ≠ host) :
    AgreeOn host s (s.step e) := by
  have same := documents_get?_step_of_ne s h
  refine ⟨?_, ?_, ?_⟩
  · rw [Store.get?, same, Store.get?]
  · rw [Store.hostVersion?, same, Store.hostVersion?]
  · intro language
    rw [Store.virtual?, same, Store.virtual?]

/-! ## Entries of the reverse index -/

/-- Whatever is found under a name is an open host that has a virtual document of that name. -/
theorem indexed_of_resolve? {past : List Event} {name host : Url} {language : Language}
    (h : (after past).resolve? name = some (host, language)) :
    (opening? host past).isSome ∧ ∃ v ∈ virtualUris host, v.url = name ∧ v.language = language := by
  induction past with
  | nil => cases h
  | cons e past ih =>
    cases e with
    | opened url version text =>
      by_cases taken : name ∈ names url
      · -- the entry is new, whatever stood there before
        obtain ⟨v, hv, rfl⟩ := List.mem_map.1 taken
        rw [resolve?_opened_of_mem past version text hv] at h
        cases h
        exact ⟨by simp [opening?], v, hv, rfl, rfl⟩
      · rw [resolve?_opened_of_not_mem past version text taken] at h
        obtain ⟨opened, v, hv, rfl, hl⟩ := ih h
        have other : url ≠ host := by
          intro same
          apply taken
          rw [same]
          exact List.mem_map_of_mem hv
        refine ⟨?_, v, hv, rfl, hl⟩
        rwa [opening?, if_neg other]
    | closed url =>
      have closed : (after (.closed url :: past)).resolve? name = _ := resolve?_close past url name
      rw [closed] at h
      split at h
      · cases h
      · next kept =>
        obtain ⟨opened, v, hv, rfl, hl⟩ := ih h
        have other : url ≠ host := by
          intro same
          apply kept
          rw [same]
          exact ⟨opened, List.mem_map_of_mem hv⟩
        refine ⟨?_, v, hv, rfl, hl⟩
        rwa [opening?, if_neg other]
    | edited url version changes =>
      rw [resolve?_edited] at h
      exact ih h
    | regenerated r =>
      rw [resolve?_regenerated] at h
      exact ih h

/-- After any history, whatever is found under a name is an open host whose virtual document of the
language that is found bears that name; and no event changes what the store says about a host that
the event is not about. -/
theorem resolve?_sound_and_local (past : List Event) :
    (∀ name host language, (after past).resolve? name = some (host, language) →
      ((after past).get? host).isSome ∧
        ∃ d, (after past).virtual? host language = some d ∧ d.url = name) ∧
    ∀ e host, e.host ≠ host → AgreeOn host (after past) (after (e :: past)) := by
  refine ⟨?_, fun e host h => agreeOn_step (after past) h⟩
  intro name host language h
  obtain ⟨opened, v, hv, rfl, rfl⟩ := indexed_of_resolve? h
  have present : ((after past).get? host).isSome := by
    rw [isSome_opening?] at opened
    simpa [Store.get?] using opened
  obtain ⟨d, hd, named, hl⟩ := exists_virtual? present (language_mem_embedded v)
  have same : d.uri = v := by
    apply VirtualUri.eq_of_host_language
    · exact (host_of_mem_virtualUris named).trans (host_of_mem_virtualUris hv).symm
    · exact hl
  exact ⟨present, d, hd, congrArg VirtualUri.url same⟩

/-- The name that the code of both files has, each read with the replacement character. -/
def latinCode : Url :=
  { latinFile "E9" with path := .segments ["p".toList, "Caf%EF%BF%BD.razor__virtual.cs".toList] }

/-- The file that was opened last is found under the common name. Closing it takes the entry away
and leaves the other file as it is. -/
theorem resolve?_sound_and_local_latinFiles :
    (after latinFiles.tail).resolve? latinCode = some (latinFile "E8", .csharp) ∧
      (∃ d, (after latinFiles.tail).virtual? (latinFile "E8") .csharp = some d ∧
        d.url = latinCode) ∧
      (Event.closed (latinFile "E8")).host ≠ latinFile "E9" ∧
      AgreeOn (latinFile "E9") (after latinFiles.tail)
        (after (.closed (latinFile "E8") :: latinFiles.tail)) := by
  have found : (after latinFiles.tail).resolve? latinCode = some (latinFile "E8", .csharp) := by
    decide +kernel
  have other : (Event.closed (latinFile "E8")).host ≠ latinFile "E9" := by decide +kernel
  obtain ⟨sound, unchanged⟩ := resolve?_sound_and_local latinFiles.tail
  exact ⟨found, (sound _ _ _ found).2, other, unchanged _ _ other⟩

end PolyglotLsp.Store
