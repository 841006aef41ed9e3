import PolyglotLsp.Proofs.Document.Locality
import PolyglotLsp.Proofs.Document.Publication
import PolyglotLsp.Scenario.Sample

/-!
# Versions along a history

Since it was last opened, a host has had the version it was opened with and the versions of the
edits that were accepted (`versions`), and each of its virtual documents has gone through the
regenerations that were accepted (`generations`). `unfolds_of_get?` says once what an event makes of
an opening and of these two lists; what holds along every history follows from it:

* the host has the latest of its versions, and they have been rising (`versions_of_get?`);
* a virtual document is what its regenerations have made of it, one version for each of them
  (`grown`), so that it reflects a host version exactly if one of them did
  (`Grown.isSynchronizedWith_iff`).
-/

namespace PolyglotLsp.Store

/-- The versions that a host has had since it was last opened, the latest first. -/
def versions (host : Url) : List Event → List Int
  | [] => []
  | .opened url version _ :: past => if url = host then [version] else versions host past
  | .closed url :: past => if url = host then [] else versions host past
  | .edited url version changes :: past =>
    match (after past).applyChanges url version changes with
    | .ok _ => if url = host then version :: versions host past else versions host past
    | .error _ => versions host past
  | .regenerated _ :: past => versions host past

/-- A regeneration that was accepted, with the document it gave out. -/
structure Generation where
  source : Regeneration
  document : VirtualSnapshot
  deriving DecidableEq

/-- The regenerations of a virtual document that were accepted since its host was last opened, the
latest first. -/
def generations (host : Url) (language : Language) : List Event → List Generation
  | [] => []
  | .opened url _ _ :: past | .closed url :: past =>
    if url = host then [] else generations host language past
  | .edited .. :: past => generations host language past
  | .regenerated r :: past =>
    match (after past).regenerate r with
    | .ok (_, some d) =>
      if r.host = host ∧ r.language = language then ⟨r, d⟩ :: generations host language past
      else generations host language past
    | .ok (_, none) | .error _ => generations host language past

/-! ## What an event makes of an opening -/

theorem versions_of_ne {e : Event} {host : Url} (h : e.host ≠ host) (past : List Event) :
    versions host (e :: past) = versions host past := by
  cases e with
  | opened url version text | closed url =>
    have other : url ≠ host := h
    simp [versions, other]
  | edited url version changes =>
    have other : url ≠ host := h
    simp only [versions, other, ↓reduceIte]
    split <;> rfl
  | regenerated r => rfl

theorem generations_of_ne {e : Event} {host : Url} (h : e.host ≠ host) (language : Language)
    (past : List Event) :
    generations host language (e :: past) = generations host language past := by
  cases e with
  | opened url version text | closed url =>
    have other : url ≠ host := h
    simp [generations, other]
  | edited url version changes => rfl
  | regenerated r =>
    have other : r.host ≠ host := h
    simp only [generations, other, false_and, ↓reduceIte]
    split <;> rfl

/-- How the opening of a host that is in force after an event comes about. -/
inductive Unfolds (past : List Event) (host : Url) : Event → Opening → Prop
  | opened (number : Nat) (version : Int) (text : String) :
      Unfolds past host (.opened host version text)
        ⟨number, version, text, (virtualUris host).map .empty⟩
  | kept {e : Event} {o : Opening} (before : (after past).documents.get? host = some o)
      (versions : versions host (e :: past) = versions host past)
      (generations : ∀ language,
        generations host language (e :: past) = generations host language past) :
      Unfolds past host e o
  | edited {o : Opening} {version : Int} {changes : List ContentChange} (text : String)
      (before : (after past).documents.get? host = some o) (newer : o.version < version)
      (versions : versions host (.edited host version changes :: past) =
        version :: versions host past) :
      Unfolds past host (.edited host version changes) { o with version, text }
  | regenerated {o : Opening} {r : Regeneration} {d₀ d : VirtualSnapshot}
      (before : (after past).documents.get? host = some o)
      (found : o.virtual? r.language = some d₀) (uri : d.uri = d₀.uri)
      (version : d.version = d₀.version + 1) (reflects : d.hostVersion = some r.hostVersion)
      (newer : ∀ v, d₀.hostVersion = some v → v ≤ r.hostVersion)
      (generations : ∀ language, generations host language (.regenerated r :: past) =
        if r.language = language then ⟨r, d⟩ :: generations host language past
        else generations host language past) :
      Unfolds past host (.regenerated r) (o.setVirtual d)

theorem unfolds_of_get? {e : Event} {past : List Event} {host : Url} {o : Opening}
    (ho : (after (e :: past)).documents.get? host = some o) : Unfolds past host e o := by
  by_cases about : e.host = host
  · cases e with
    | opened url version text =>
      obtain rfl : url = host := about
      rw [after, step, openDocument, Table.get?_set, if_pos rfl] at ho
      cases ho
      exact .opened _ version text
    | edited url version changes =>
      obtain rfl : url = host := about
      rw [after, step] at ho
      cases hs : (after past).applyChanges url version changes with
      | error _ =>
        rw [hs] at ho
        exact .kept ho (by simp [versions, hs]) fun _ => rfl
      | ok result =>
        obtain ⟨o₀, text, before, newer, hs', -⟩ := applyChanges_ok hs
        rw [hs] at ho
        simp only [hs', Table.get?_set, ↓reduceIte, Option.some.injEq] at ho
        rw [← ho]
        exact .edited text before newer (by simp [versions, hs])
    | regenerated r =>
      obtain rfl : r.host = host := about
      rw [after, step] at ho
      cases hs : (after past).regenerate r with
      | error _ =>
        rw [hs] at ho
        exact .kept ho rfl fun _ => by simp [generations, hs]
      | ok result =>
        rw [hs] at ho
        obtain ⟨s, _ | d⟩ := result
        · rw [regenerate_none hs] at ho
          exact .kept ho rfl fun _ => by simp [generations, hs]
        · obtain ⟨o₀, d₀, text, before, found, hd, hs'⟩ := regenerate_some hs
          simp only [hs', Table.get?_set, ↓reduceIte, Option.some.injEq] at ho
          rw [← ho]
          refine .regenerated before found (by rw [hd]) (by rw [hd]) (by rw [hd]) ?_ ?_
          · intro v hv
            exact le_of_regenerate_some hs before found hv
          · intro language
            simp [generations, hs]
    | closed url =>
      obtain rfl : url = host := about
      rw [after, step, documents_get?_close, if_pos rfl] at ho
      cases ho
  · rw [after, documents_get?_step_of_ne _ about] at ho
    exact .kept ho (versions_of_ne about past) fun language => generations_of_ne about language past

/-! ## The versions of a host -/

theorem versions_of_get? {past : List Event} {host : Url} {o : Opening}
    (ho : (after past).documents.get? host = some o) :
    (versions host past).head? = some o.version ∧ (versions host past).Pairwise (· > ·) := by
  induction past generalizing o with
  | nil => cases ho
  | cons e past ih =>
    cases unfolds_of_get? ho with
    | opened number version text => simp [versions]
    | kept before hv hg =>
      rw [hv]
      exact ih before
    | edited text before newer hv =>
      obtain ⟨latest, rising⟩ := ih before
      rw [hv]
      refine ⟨rfl, List.pairwise_cons.2 ⟨?_, rising⟩⟩
      intro v mem
      -- every earlier version is at most the one that the edit replaces
      obtain ⟨rest, hrest⟩ := List.head?_eq_some_iff.1 latest
      rw [hrest] at mem rising
      rcases List.mem_cons.1 mem with rfl | mem
      · exact newer
      · have := List.rel_of_pairwise_cons rising mem
        omega
    | regenerated before =>
      have unchanged := ih before
      exact unchanged

/-! ## The generations of a virtual document -/

/-- What accepted regenerations, the latest first, make of a virtual document. -/
inductive Grown (uri : VirtualUri) : List Generation → VirtualSnapshot → Prop
  | new : Grown uri [] (.empty uri)
  | next {gs : List Generation} {d : VirtualSnapshot} (h : Grown uri gs d) {g : Generation}
      (named : g.document.uri = uri) (version : g.document.version = d.version + 1)
      (reflects : g.document.hostVersion = some g.source.hostVersion)
      (newer : ∀ v, d.hostVersion = some v → v ≤ g.source.hostVersion) :
      Grown uri (g :: gs) g.document

namespace Grown

variable {uri : VirtualUri} {gs : List Generation} {d : VirtualSnapshot}

theorem version_eq (h : Grown uri gs d) : d.version = gs.length := by
  induction h with
  | new => rfl
  | next _ _ version _ _ ih =>
    rw [version, ih]
    rfl

theorem hostVersion_eq (h : Grown uri gs d) :
    d.hostVersion = gs.head?.map (·.source.hostVersion) := by
  cases h with
  | new => rfl
  | next _ _ _ reflects _ => exact reflects

theorem exists_hostVersion (h : Grown uri gs d) (hg : gs ≠ []) : ∃ v, d.hostVersion = some v := by
  rw [← Option.isSome_iff_exists, h.hostVersion_eq, Option.isSome_map]
  exact List.isSome_head?.2 hg

/-- No regeneration comes from a later host version than the latest one. -/
theorem le_latest (h : Grown uri gs d) {g : Generation} (hg : g ∈ gs) {v : Int}
    (hv : d.hostVersion = some v) : g.source.hostVersion ≤ v := by
  induction h generalizing v with
  | new => cases hg
  | next earlier _ _ reflects newer ih =>
    rw [reflects] at hv
    cases hv
    rcases List.mem_cons.1 hg with rfl | hg
    · exact Int.le_refl _
    · obtain ⟨w, hw⟩ := earlier.exists_hostVersion (List.ne_nil_of_mem hg)
      exact Int.le_trans (ih hg hw) (newer w hw)

theorem isNew_iff (h : Grown uri gs d) : d.hostVersion = none ∧ d.text = "" ↔ gs = [] := by
  cases h with
  | new => simp [VirtualSnapshot.empty]
  | next _ _ _ reflects _ => simp [reflects]

/-- A document reflects a host version exactly if one of its regenerations did. -/
theorem isSynchronizedWith_iff (h : Grown uri gs d) (v : Int) :
    d.isSynchronizedWith v = true ↔ ∃ g ∈ gs, v ≤ g.source.hostVersion := by
  constructor
  · intro hs
    cases h with
    | new => cases hs
    | @next _ _ _ g _ _ reflects _ =>
      refine ⟨g, List.mem_cons_self, ?_⟩
      simpa [VirtualSnapshot.isSynchronizedWith, reflects] using hs
  · rintro ⟨g, hg, hv⟩
    obtain ⟨w, hw⟩ := h.exists_hostVersion (List.ne_nil_of_mem hg)
    have := h.le_latest hg hw
    simp only [VirtualSnapshot.isSynchronizedWith, hw, decide_eq_true_eq]
    omega

end Grown

/-- Every virtual document of an open host is what its regenerations have made of it. -/
theorem grown {past : List Event} {host : Url} {o : Opening}
    (ho : (after past).documents.get? host = some o) {language : Language} {d : VirtualSnapshot}
    (hd : o.virtual? language = some d) : Grown d.uri (generations host language past) d := by
  induction past generalizing o d with
  | nil => cases ho
  | cons e past ih =>
    cases unfolds_of_get? ho with
    | opened number version text =>
      obtain ⟨v, -, rfl⟩ := List.mem_map.1 (Opening.mem_of_virtual? hd).1
      simp only [generations, ↓reduceIte]
      exact .new
    | kept before hv hg =>
      rw [hg]
      exact ih before hd
    | edited text before newer hv => exact ih before hd
    | @regenerated _ r d₀ d' before found uri version reflects newer hg =>
      have language₀ : d₀.language = r.language := (Opening.mem_of_virtual? found).2
      have language' : d'.language = r.language := (congrArg VirtualUri.language uri).trans language₀
      rw [Opening.virtual?_setVirtual] at hd
      obtain ⟨e, he, replaced⟩ := Option.map_eq_some_iff.1 hd
      have languageₑ : e.language = language := (Opening.mem_of_virtual? he).2
      rw [hg]
      by_cases same : r.language = language
      · subst same
        rw [if_pos (languageₑ.trans language'.symm)] at replaced
        subst replaced
        rw [if_pos rfl, uri]
        exact .next (ih before found) uri version reflects newer
      · rw [if_neg (by rw [languageₑ, language']; exact Ne.symm same)] at replaced
        subst replaced
        rw [if_neg same]
        exact ih before he

/-- As long as its host stays open, a document's regenerations are kept and added to. -/
theorem generations_suffix_append {host : Url} (language : Language) {during : List Event}
    (h : ∀ e ∈ during, ¬ Interrupts host e) (past : List Event) :
    generations host language past <:+ generations host language (during ++ past) := by
  induction during with
  | nil => exact List.suffix_rfl
  | cons e during ih =>
    have before := ih fun e' he' => h e' (List.mem_cons_of_mem _ he')
    have going := h e List.mem_cons_self
    apply before.trans
    cases e with
    | opened url version text | closed url =>
      have other : url ≠ host := going
      simp only [List.cons_append, generations, other, ↓reduceIte]
      exact List.suffix_rfl
    | edited url version changes => exact List.suffix_rfl
    | regenerated r =>
      simp only [List.cons_append, generations]
      split
      · split
        · exact List.suffix_cons ..
        · exact List.suffix_rfl
      · exact List.suffix_rfl
      · exact List.suffix_rfl

theorem isSome_get?_append {past : List Event} {host : Url} (h : ((after past).get? host).isSome)
    {during : List Event} (going : ∀ e ∈ during, ¬ Interrupts host e) :
    ((after (during ++ past)).get? host).isSome := by
  simp only [Store.get?, Option.isSome_map, ← isSome_opening?] at h ⊢
  obtain ⟨number, hn⟩ := Option.isSome_iff_exists.1 h
  have still : opening? host (during ++ past) = some number := by
    apply (opening?_append_iff hn during).2
    rintro ⟨e, he, interrupts⟩
    exact going e he interrupts
  simp [still]

/-- An open host has one document for each embedded language, which is what the regenerations since
the host was opened have made of it. -/
theorem exists_grown {past : List Event} {host : Url} (h : ((after past).get? host).isSome)
    {language : Language} (hl : language ∈ Language.embedded) :
    ∃ d, (after past).virtual? host language = some d ∧
      Grown d.uri (generations host language past) d := by
  obtain ⟨d, hd, -, -⟩ := exists_virtual? h hl
  obtain ⟨o, ho, hd'⟩ := Option.bind_eq_some_iff.1 hd
  exact ⟨d, hd, grown ho hd'⟩

/-- An open host has the version of the edit that was accepted last, or the one it was opened with,
and its versions have been rising. Each of its virtual documents has been given one version by every
regeneration that was accepted since the host was opened; it is new, without text and host version,
exactly as long as there is none, and otherwise reflects the host version of the latest, which is
the highest of all. A host version that it reflects stays reflected until the host is closed or
opened again. -/
theorem versions_of_open (past : List Event) {host : Url} {h : HostSnapshot}
    (ho : (after past).get? host = some h) :
    (versions host past).head? = some h.version ∧ (versions host past).Pairwise (· > ·) ∧
      ∀ language ∈ Language.embedded, ∃ d, (after past).virtual? host language = some d ∧
        d.version = (generations host language past).length ∧
        (d.hostVersion = none ∧ d.text = "" ↔ generations host language past = []) ∧
        (∀ g earlier, generations host language past = g :: earlier →
          d.hostVersion = some g.source.hostVersion ∧
            ∀ g' ∈ earlier, g'.source.hostVersion ≤ g.source.hostVersion) ∧
        ∀ v, d.isSynchronizedWith v = true → ∀ during, (∀ e ∈ during, ¬ Interrupts host e) →
          ∃ d', (after (during ++ past)).virtual? host language = some d' ∧
            d'.isSynchronizedWith v = true := by
  have opened : ((after past).get? host).isSome := by simp [ho]
  obtain ⟨o, found, rfl⟩ := Option.map_eq_some_iff.1 ho
  obtain ⟨latest, rising⟩ := versions_of_get? found
  refine ⟨latest, rising, ?_⟩
  intro language hl
  obtain ⟨d, hd, grown⟩ := exists_grown opened hl
  refine ⟨d, hd, grown.version_eq, grown.isNew_iff, ?_, ?_⟩
  · intro g earlier hg
    have hv : d.hostVersion = some g.source.hostVersion := by simp [grown.hostVersion_eq, hg]
    refine ⟨hv, fun g' hg' => grown.le_latest ?_ hv⟩
    rw [hg]
    exact List.mem_cons_of_mem _ hg'
  · intro v hs during going
    obtain ⟨d', hd', grown'⟩ := exists_grown (isSome_get?_append opened going) hl
    obtain ⟨g, hg, hv⟩ := (grown.isSynchronizedWith_iff v).1 hs
    have kept := (generations_suffix_append language going past).subset hg
    exact ⟨d', hd', (grown'.isSynchronizedWith_iff v).2 ⟨g, kept, hv⟩⟩

open Scenario.Sample

/-- The sample's host goes from its first version to the third, and its code follows. An edit to the
second version comes too late, and so does another regeneration from the first. -/
def latecomers : List Event :=
  [.regenerated (regeneration 1), .regenerated (regeneration 3),
    .edited hostUrl 2 [⟨none, none, "@late"⟩], .edited hostUrl 3 [⟨none, none, "@words"⟩],
    .regenerated (regeneration 1), .opened hostUrl 1 "@word"]

theorem versions_of_open_latecomers :
    ∃ h, (after latecomers).get? hostUrl = some h ∧ versions hostUrl latecomers = [3, 1] ∧
      h.version = 3 ∧
      ∃ d, (after latecomers).virtual? hostUrl .csharp = some d ∧ d.version = 2 ∧
        d.hostVersion = some 3 ∧
        ∃ d', (after (.edited hostUrl 4 [] :: latecomers)).virtual? hostUrl .csharp = some d' ∧
          d'.isSynchronizedWith 3 = true := by
  have opened : ((after latecomers).get? hostUrl).isSome := by decide +kernel
  have hostVersions : versions hostUrl latecomers = [3, 1] := by decide +kernel
  have sources : (generations hostUrl .csharp latecomers).map (·.source.hostVersion) = [3, 1] := by
    decide +kernel
  obtain ⟨h, hh⟩ := Option.isSome_iff_exists.1 opened
  obtain ⟨latest, -, documents⟩ := versions_of_open latecomers hh
  obtain ⟨d, hd, version, -, reflects, stays⟩ := documents .csharp (by decide)
  have count : (generations hostUrl .csharp latecomers).length = 2 := by
    simpa using congrArg List.length sources
  obtain ⟨g, earlier, hg⟩ := List.exists_cons_of_length_eq_add_one count
  have third : d.hostVersion = some 3 := by
    rw [hg, List.map_cons, List.cons.injEq] at sources
    rw [(reflects g earlier hg).1, sources.1]
  have synchronized : d.isSynchronizedWith 3 = true := by
    simp [VirtualSnapshot.isSynchronizedWith, third]
  refine ⟨h, hh, hostVersions, ?_, d, hd, ?_, third, ?_⟩
  · rw [hostVersions] at latest
    exact (Option.some.inj latest).symm
  · rw [version, count]
    rfl
  · exact stays 3 synchronized [.edited hostUrl 4 []] (by simp [Interrupts])

end PolyglotLsp.Store
