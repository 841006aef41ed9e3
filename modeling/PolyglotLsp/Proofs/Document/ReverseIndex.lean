import PolyglotLsp.Proofs.Document.History
import PolyglotLsp.Proofs.VirtualUri

/-!
# From virtual documents back to their hosts

The reverse index follows the history of the store: opening a host enters the names of its virtual
documents, closing it takes them out, and nothing else touches them (`resolve?_opened_of_mem`,
`resolve?_close`). The names of one host differ, but two hosts can share one, since a file name is
decoded and encoded again on the way. Then the opening of one host takes the entry of the other
over, and its closing removes it. An open host is found under the name of its virtual document as
long as no other host of that name has been opened or closed since (`resolve?_iff_not_contested`).
-/

namespace PolyglotLsp.Store

/-- The names of a host's virtual documents. -/
def names (host : Url) : List Url := (virtualUris host).map (·.url)

theorem language_mem_embedded (v : VirtualUri) : v.language ∈ Language.embedded := by
  have derived := v.derived
  cases hl : v.language with
  | razor => simp [VirtualUri.urlOf?, hl, Language.suffix?] at derived
  | html | csharp => decide

theorem mem_virtualUris (v : VirtualUri) : v ∈ virtualUris v.host :=
  List.mem_filterMap.2 ⟨v.language, language_mem_embedded v, v.of?_eq_some⟩

/-- The virtual documents of one host have different names. -/
theorem nodup_names (host : Url) : (names host).Nodup := by
  rw [names, List.Nodup, List.pairwise_map]
  refine (nodup_virtualUris host).imp_of_mem fun {v v'} hv hv' hne hu => hne ?_
  have hosts : v.host = v'.host :=
    (host_of_mem_virtualUris hv).trans (host_of_mem_virtualUris hv').symm
  exact VirtualUri.eq_of_host_language hosts (VirtualUri.language_eq_of_url_eq hu)

/-- The names of an open host's virtual documents, in its opening. -/
theorem map_url_virtuals {past : List Event} {host : Url} {o : Opening}
    (ho : (after past).documents.get? host = some o) :
    o.virtuals.map (·.url) = names host := by
  have named := ((accounts past).current (Table.mem_of_get? ho)).named
  rw [names, ← named, List.map_map]
  rfl

theorem Accounted.exists_virtual? {past : List Event} {host : Url} {o : Opening}
    (h : Accounted past host o) {language : Language} (hl : language ∈ Language.embedded) :
    ∃ d, o.virtual? language = some d := by
  obtain ⟨v, -, rfl, rfl⟩ := VirtualUri.exists_of? host hl
  have mem : v ∈ o.virtuals.map (·.uri) := h.named ▸ mem_virtualUris v
  obtain ⟨d, hd, rfl⟩ := List.mem_map.1 mem
  rw [← Option.isSome_iff_exists, Opening.virtual?, List.find?_isSome]
  exact ⟨d, hd, by simp [VirtualSnapshot.language]⟩

theorem exists_virtual? {past : List Event} {host : Url} (ho : ((after past).get? host).isSome)
    {language : Language} (hl : language ∈ Language.embedded) :
    ∃ d, (after past).virtual? host language = some d ∧ d.uri ∈ virtualUris host ∧
      d.language = language := by
  obtain ⟨h, hh⟩ := Option.isSome_iff_exists.1 ho
  obtain ⟨o, ho, -⟩ := Option.map_eq_some_iff.1 hh
  have accounted := (accounts past).current (Table.mem_of_get? ho)
  obtain ⟨d, hd⟩ := accounted.exists_virtual? hl
  obtain ⟨mem, language'⟩ := Opening.mem_of_virtual? hd
  refine ⟨d, ?_, ?_, language'⟩
  · simp [virtual?, ho, hd]
  · exact accounted.named ▸ List.mem_map_of_mem mem

/-! ## The index along the history -/

theorem isSome_opening? (past : List Event) (host : Url) :
    (opening? host past).isSome = ((after past).documents.get? host).isSome := by
  rw [← number_after, Option.isSome_map]

theorem resolve?_close (past : List Event) (url name : Url) :
    ((after past).close url).resolve? name =
      if (opening? url past).isSome ∧ name ∈ names url then none
      else (after past).resolve? name := by
  rw [isSome_opening?]
  unfold close
  split
  · next hn => simp [hn]
  · next o ho =>
    simp only [resolve?, Table.get?_foldl_erase, ho, map_url_virtuals ho]
    simp

theorem resolve?_opened_of_mem (past : List Event) (version : Int) (text : String)
    {url : Url} {v : VirtualUri} (hv : v ∈ virtualUris url) :
    (after (.opened url version text :: past)).resolve? v.url = some (url, v.language) :=
  Table.get?_foldl_set_of_mem VirtualUri.url (fun v => (url, v.language)) (nodup_names url) hv _

theorem resolve?_opened_of_not_mem (past : List Event) {url name : Url} (version : Int)
    (text : String) (h : name ∉ names url) :
    (after (.opened url version text :: past)).resolve? name = (after past).resolve? name := by
  have closed := resolve?_close past url name
  rw [if_neg fun hn => h hn.2] at closed
  rw [← closed]
  exact Table.get?_foldl_set_of_not_mem VirtualUri.url (fun v => (url, v.language)) h _

theorem resolve?_edited (past : List Event) (url : Url) (version : Int)
    (changes : List ContentChange) (name : Url) :
    (after (.edited url version changes :: past)).resolve? name = (after past).resolve? name := by
  rw [after]
  rcases step_edited (after past) url version changes with hs | ⟨o, text, -, hs⟩
  · rw [hs]
  · rw [hs]
    rfl

theorem resolve?_regenerated (past : List Event) (r : Regeneration) (name : Url) :
    (after (.regenerated r :: past)).resolve? name = (after past).resolve? name := by
  rw [after]
  rcases step_regenerated (after past) r with ⟨hs, -⟩ | ⟨o, d₀, d, -, -, -, -, -, hs⟩
  · rw [hs]
  · rw [hs]
    rfl

/-! ## Contested names -/

/-- Since a host was last opened, another host that has a virtual document of this name was opened,
or was open and has been closed. -/
def Contested (host name : Url) : List Event → Prop
  | [] => False
  | .opened url _ _ :: past => url ≠ host ∧ (name ∈ names url ∨ Contested host name past)
  | .closed url :: past =>
    url ≠ host ∧ ((opening? url past).isSome ∧ name ∈ names url ∨ Contested host name past)
  | .edited .. :: past | .regenerated _ :: past => Contested host name past

instance Contested.decidable (host name : Url) :
    (past : List Event) → Decidable (Contested host name past)
  | [] => inferInstanceAs (Decidable False)
  | .opened url _ _ :: past =>
    have := Contested.decidable host name past
    inferInstanceAs (Decidable (url ≠ host ∧ (name ∈ names url ∨ Contested host name past)))
  | .closed url :: past =>
    have := Contested.decidable host name past
    inferInstanceAs (Decidable (url ≠ host ∧
      ((opening? url past).isSome ∧ name ∈ names url ∨ Contested host name past)))
  | .edited .. :: past => Contested.decidable host name past
  | .regenerated _ :: past => Contested.decidable host name past

/-- An open host is found under the name of its virtual document exactly if the name has not been
contested since the host was opened. -/
theorem resolve?_iff_not_contested (past : List Event) {host : Url}
    (ho : (opening? host past).isSome) {v : VirtualUri} (hv : v ∈ virtualUris host) :
    (after past).resolve? v.url = some (host, v.language) ↔ ¬ Contested host v.url past := by
  have named : v.url ∈ names host := List.mem_map_of_mem hv
  induction past with
  | nil => cases ho
  | cons e past ih =>
    cases e with
    | opened url version text =>
      by_cases same : url = host
      · subst same
        simp [Contested, resolve?_opened_of_mem past version text hv]
      · simp only [opening?, if_neg same] at ho
        by_cases taken : v.url ∈ names url
        · -- the entry is another host's now
          obtain ⟨v', hv', hu⟩ := List.mem_map.1 taken
          rw [← hu, resolve?_opened_of_mem past version text hv', hu]
          simp [Contested, same, taken]
        · rw [resolve?_opened_of_not_mem past version text taken]
          exact (ih ho).trans (by simp [Contested, same, taken])
    | closed url =>
      have closed : (after (.closed url :: past)).resolve? v.url = _ :=
        resolve?_close past url v.url
      by_cases same : url = host
      · simp [opening?, same] at ho
      · simp only [opening?, if_neg same] at ho
        rw [closed]
        by_cases erased : (opening? url past).isSome ∧ v.url ∈ names url
        · simp [Contested, same, erased]
        · rw [if_neg erased]
          exact (ih ho).trans (by simp [Contested, same, erased])
    | edited url version changes =>
      rw [resolve?_edited]
      exact ih ho
    | regenerated r =>
      rw [resolve?_regenerated]
      exact ih ho

/-- Every open host has a virtual document for each embedded language, and looking its name up
leads back to the host exactly if the name has not been contested since the host was opened. -/
theorem resolve?_of_open (past : List Event) {host : Url} (ho : ((after past).get? host).isSome)
    (language : Language) (hl : language ∈ Language.embedded) :
    ∃ d, (after past).virtual? host language = some d ∧
      ((after past).resolve? d.url = some (host, language) ↔ ¬ Contested host d.url past) := by
  obtain ⟨d, hd, named, rfl⟩ := exists_virtual? ho hl
  have opened : (opening? host past).isSome := by
    rw [isSome_opening?]
    simpa [get?] using ho
  exact ⟨d, hd, resolve?_iff_not_contested past opened named⟩

/-- A file with a Latin-1 letter in its name, which is not UTF-8. -/
def latinFile (letter : String) : Url :=
  ⟨"file".toList, some ⟨[], [], none⟩,
    .segments ["p".toList, ("Caf%" ++ letter ++ ".razor").toList], none, none⟩

/-- Two such files are opened and the second is closed again. Decoding reads either letter as the
replacement character, so that their virtual documents share their names. -/
def latinFiles : List Event :=
  [.closed (latinFile "E8"), .opened (latinFile "E8") 1 "", .opened (latinFile "E9") 1 ""]

theorem resolve?_of_open_latinFiles :
    ((after latinFiles).get? (latinFile "E9")).isSome ∧
      ∃ d, (after latinFiles).virtual? (latinFile "E9") .csharp = some d ∧
        Contested (latinFile "E9") d.url latinFiles ∧
        (after latinFiles).resolve? d.url ≠ some (latinFile "E9", .csharp) := by
  have opened : ((after latinFiles).get? (latinFile "E9")).isSome := by decide +kernel
  obtain ⟨d, hd, found⟩ := resolve?_of_open latinFiles opened .csharp (by decide)
  have contested : Contested (latinFile "E9") d.url latinFiles := by
    have all : ∀ e ∈ (after latinFiles).virtual? (latinFile "E9") .csharp,
        Contested (latinFile "E9") e.url latinFiles := by decide +kernel
    exact all d hd
  exact ⟨opened, d, hd, contested, fun h => found.1 h contested⟩

/-- The file that is still open is not found any more. -/
theorem resolve?_latinFiles :
    ¬ ∀ (past : List Event) (host : Url), ((after past).get? host).isSome →
      ∀ language ∈ Language.embedded, ∃ d, (after past).virtual? host language = some d ∧
        (after past).resolve? d.url = some (host, language) := by
  intro complete
  obtain ⟨d, hd, found⟩ :=
    complete latinFiles (latinFile "E9") (by decide +kernel) .csharp (by decide)
  have lost : ((after latinFiles).virtual? (latinFile "E9") .csharp).bind
      (fun d => (after latinFiles).resolve? d.url) = none := by
    decide +kernel
  rw [hd, Option.bind_some, found] at lost
  cases lost

end PolyglotLsp.Store
