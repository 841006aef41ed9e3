import PolyglotLsp.Document.Store

/-!
# Histories of the document store

A store is the outcome of the events that happened to it. Each event that opens a host begins an
opening; openings are numbered by their order, so that a number means one opening of one host for
ever. What this module states about the store after any history:

* the store's numbers are those of the history (`nextNumber_after`, `number_after`);
* every opening the store knows, in force or closed, belongs to the host that was opened under its
  number, has that host's virtual documents, and holds nothing but what accepted regenerations
  published while it was in force (`accounts`);
* hence whatever a subscriber of an opening sees was published under that opening
  (`published_of_publication?`).
-/

namespace PolyglotLsp.Store

inductive Event where
  | opened (url : Url) (version : Int) (text : String)
  | edited (url : Url) (version : Int) (changes : List ContentChange)
  | regenerated (r : Regeneration)
  | closed (url : Url)

/-- The store after an event. Edits and regenerations that cannot be applied are ignored. -/
def step (s : Store) : Event → Store
  | .opened url version text => s.openDocument url version text
  | .edited url version changes =>
    match s.applyChanges url version changes with
    | .ok (s, _) => s
    | .error _ => s
  | .regenerated r =>
    match s.regenerate r with
    | .ok (s, _) => s
    | .error _ => s
  | .closed url => s.close url

/-- The store after a history, which lists the latest event first. -/
def after : List Event → Store
  | [] => .empty
  | e :: past => (after past).step e

/-- The hosts that were opened, the first one first. The place of an opening in this list is its
number. -/
def openings : List Event → List Url
  | [] => []
  | .opened url _ _ :: past => openings past ++ [url]
  | .edited .. :: past | .regenerated _ :: past | .closed _ :: past => openings past

/-- The number of the opening of a host that is in force. -/
def opening? (host : Url) : List Event → Option Nat
  | [] => none
  | .opened url _ _ :: past =>
    if url = host then some (openings past).length else opening? host past
  | .closed url :: past => if url = host then none else opening? host past
  | .edited .. :: past | .regenerated _ :: past => opening? host past

/-- A regeneration that was accepted under an opening of its host gave out this document. -/
def Published (past : List Event) (number : Nat) (d : VirtualSnapshot) : Prop :=
  ∃ later r earlier s, past = later ++ .regenerated r :: earlier ∧
    (after earlier).regenerate r = .ok (s, some d) ∧ opening? r.host earlier = some number

theorem Published.append {past : List Event} {number : Nat} {d : VirtualSnapshot}
    (h : Published past number d) (later : List Event) : Published (later ++ past) number d := by
  obtain ⟨later', r, earlier, s, rfl, hr, hn⟩ := h
  exact ⟨later ++ later', r, earlier, s, by simp, hr, hn⟩

/-! ## Numbers -/

theorem openings_prefix_cons (e : Event) (past : List Event) :
    openings past <+: openings (e :: past) := by
  cases e with
  | opened url version text => exact List.prefix_append ..
  | edited | regenerated | closed => exact List.prefix_rfl

theorem openings_prefix_append (later past : List Event) :
    openings past <+: openings (later ++ past) := by
  induction later with
  | nil => exact List.prefix_rfl
  | cons e later ih => exact ih.trans (openings_prefix_cons e (later ++ past))

theorem openings_getElem?_append {past : List Event} {number : Nat} {host : Url}
    (h : (openings past)[number]? = some host) (later : List Event) :
    (openings (later ++ past))[number]? = some host := by
  obtain ⟨more, hm⟩ := openings_prefix_append later past
  obtain ⟨hlt, -⟩ := List.getElem?_eq_some_iff.1 h
  rw [← hm, List.getElem?_append_left hlt, h]

theorem openings_getElem?_of_opening? {past : List Event} {number : Nat} {host : Url}
    (h : opening? host past = some number) : (openings past)[number]? = some host := by
  induction past with
  | nil => cases h
  | cons e past ih =>
    have earlier (h : opening? host past = some number) :
        (openings (e :: past))[number]? = some host := openings_getElem?_append (ih h) [e]
    cases e with
    | opened url version text =>
      simp only [opening?] at h
      split at h
      · next hu =>
        cases h
        simp [openings, hu]
      · exact earlier h
    | edited | regenerated => exact earlier h
    | closed url =>
      simp only [opening?] at h
      split at h
      · cases h
      · exact earlier h

/-! ## What each operation does -/

theorem Opening.mem_of_virtual? {o : Opening} {language : Language} {d : VirtualSnapshot}
    (h : o.virtual? language = some d) : d ∈ o.virtuals ∧ d.language = language :=
  ⟨List.mem_of_find?_eq_some h, by simpa using List.find?_some h⟩

/-- An accepted edit gives the host a newer version and another text, and nothing else. -/
theorem applyChanges_ok {s s' : Store} {url : Url} {version : Int} {changes : List ContentChange}
    {h : HostSnapshot} (hs : s.applyChanges url version changes = .ok (s', h)) :
    ∃ o text, s.documents.get? url = some o ∧ o.version < version ∧
      s' = { s with documents := s.documents.set url { o with version, text } } ∧
      h = { o with version, text }.snapshot url := by
  unfold applyChanges at hs
  split at hs
  · cases hs
  · next o ho =>
    split at hs
    · cases hs
    · next hv =>
      cases ht : changes.foldlM (applyChange url) o.text with
      | error e =>
        rw [ht] at hs
        cases hs
      | ok text =>
        rw [ht] at hs
        cases hs
        exact ⟨o, text, ho, by omega, rfl, rfl⟩

/-- An accepted regeneration replaces one virtual document by its next version, which reflects the
regeneration's host version. -/
theorem regenerate_some {s s' : Store} {r : Regeneration} {d : VirtualSnapshot}
    (hs : s.regenerate r = .ok (s', some d)) :
    ∃ o d₀ text, s.documents.get? r.host = some o ∧ o.virtual? r.language = some d₀ ∧
      d = { d₀ with version := d₀.version + 1, hostVersion := some r.hostVersion, text } ∧
      s' = { s with documents := s.documents.set r.host (o.setVirtual d) } := by
  unfold regenerate at hs
  split at hs
  · cases hs
  · next o ho =>
    split at hs
    · cases hs
    · next d₀ hd =>
      split at hs
      · cases hs
      · cases ht : TextChange.splice d₀.text r.changes with
        | error e =>
          rw [ht] at hs
          cases hs
        | ok text =>
          rw [ht] at hs
          cases hs
          exact ⟨o, d₀, text, ho, hd, rfl, rfl⟩

/-- A regeneration that is ignored changes nothing. -/
theorem regenerate_none {s s' : Store} {r : Regeneration}
    (hs : s.regenerate r = .ok (s', none)) : s' = s := by
  unfold regenerate at hs
  split at hs
  · cases hs
  · split at hs
    · cases hs
    · split at hs
      · cases hs
        rfl
      · next d₀ _ _ =>
        cases ht : TextChange.splice d₀.text r.changes with
        | error e =>
          rw [ht] at hs
          cases hs
        | ok text =>
          rw [ht] at hs
          cases hs

/-- A regeneration that is accepted comes from no older host version than the last one. -/
theorem le_of_regenerate_some {s s' : Store} {r : Regeneration} {d : VirtualSnapshot}
    (hs : s.regenerate r = .ok (s', some d)) {o : Opening} (ho : s.documents.get? r.host = some o)
    {d₀ : VirtualSnapshot} (hd₀ : o.virtual? r.language = some d₀) {v : Int}
    (hv : d₀.hostVersion = some v) : v ≤ r.hostVersion := by
  simp only [regenerate, ho, hd₀, hv, Option.any_some, decide_eq_true_eq] at hs
  split at hs
  · cases hs
  · next hle => omega

/-- An edit is ignored, or gives the host another version and text. -/
theorem step_edited (s : Store) (url : Url) (version : Int) (changes : List ContentChange) :
    s.step (.edited url version changes) = s ∨
      ∃ o text, s.documents.get? url = some o ∧
        s.step (.edited url version changes) =
          { s with documents := s.documents.set url { o with version, text } } := by
  simp only [step]
  split
  · next hs =>
    obtain ⟨o, text, ho, -, rfl, -⟩ := applyChanges_ok hs
    exact .inr ⟨o, text, ho, rfl⟩
  · exact .inl rfl

/-- A regeneration is ignored, or replaces one virtual document of its host. -/
theorem step_regenerated (s : Store) (r : Regeneration) :
    (s.step (.regenerated r) = s ∧ ∀ s' d, s.regenerate r ≠ .ok (s', some d)) ∨
      ∃ o d₀ d, s.documents.get? r.host = some o ∧ o.virtual? r.language = some d₀ ∧
        d.uri = d₀.uri ∧ d.hostVersion = some r.hostVersion ∧
        s.regenerate r = .ok (s.step (.regenerated r), some d) ∧
        s.step (.regenerated r) =
          { s with documents := s.documents.set r.host (o.setVirtual d) } := by
  cases hs : s.regenerate r with
  | error e =>
    refine .inl ⟨by simp [step, hs], fun s' d => ?_⟩
    simp
  | ok result =>
    obtain ⟨s', _ | d⟩ := result
    · refine .inl ⟨?_, fun s'' d => by simp⟩
      have same := regenerate_none hs
      simp [step, hs, same]
    · obtain ⟨o, d₀, text, ho, hd₀, hd, hs'⟩ := regenerate_some hs
      have next : s.step (.regenerated r) = s' := by simp [step, hs]
      exact .inr ⟨o, d₀, d, ho, hd₀, by rw [hd], by rw [hd], by rw [next], next.trans hs'⟩

theorem documents_get?_close (s : Store) (url host : Url) :
    (s.close url).documents.get? host =
      if url = host then none else s.documents.get? host := by
  unfold close
  split
  · next hn =>
    split
    · next hu => rw [← hu, hn]
    · rfl
  · exact Table.get?_erase ..

theorem nextNumber_close (s : Store) (url : Url) : (s.close url).nextNumber = s.nextNumber := by
  unfold close
  split <;> rfl

/-! ## The store's numbers are those of its history -/

theorem nextNumber_after (past : List Event) :
    (after past).nextNumber = (openings past).length := by
  induction past with
  | nil => rfl
  | cons e past ih =>
    cases e with
    | opened url version text => simp [after, step, openDocument, openings, nextNumber_close, ih]
    | edited url version changes =>
      simp only [after, step, openings]
      split
      · next hs =>
        obtain ⟨o, text, -, -, rfl, -⟩ := applyChanges_ok hs
        exact ih
      · exact ih
    | regenerated r =>
      simp only [after, step, openings]
      split
      · next d hs =>
        cases d with
        | none => rw [regenerate_none hs, ih]
        | some d =>
          obtain ⟨o, d₀, text, -, -, -, rfl⟩ := regenerate_some hs
          exact ih
      · exact ih
    | closed url => simp [after, step, openings, nextNumber_close, ih]

/-- Replacing an opening by one of the same number changes no number. -/
theorem number_set {t : Table Url Opening} {url : Url} {o o' : Opening} (ho : t.get? url = some o)
    (hn : o'.number = o.number) (host : Url) :
    ((t.set url o').get? host).map (·.number) = (t.get? host).map (·.number) := by
  rw [Table.get?_set]
  split
  · next hu => simp [← hu, ho, hn]
  · rfl

theorem number_after (past : List Event) (host : Url) :
    ((after past).documents.get? host).map (·.number) = opening? host past := by
  induction past with
  | nil => rfl
  | cons e past ih =>
    cases e with
    | opened url version text =>
      simp only [after, step, openDocument, opening?, Table.get?_set, nextNumber_close,
        nextNumber_after, documents_get?_close]
      split <;> simp_all
    | edited url version changes =>
      simp only [after, step, opening?]
      split
      · next hs =>
        obtain ⟨o, text, ho, -, rfl, -⟩ := applyChanges_ok hs
        rw [← ih]
        exact number_set ho (by rfl) host
      · exact ih
    | regenerated r =>
      simp only [after, step, opening?]
      split
      · next d hs =>
        cases d with
        | none => rw [regenerate_none hs, ih]
        | some d =>
          obtain ⟨o, d₀, text, ho, -, -, rfl⟩ := regenerate_some hs
          rw [← ih]
          exact number_set ho (by rfl) host
      · exact ih
    | closed url =>
      simp only [after, step, opening?, documents_get?_close]
      split <;> simp_all

/-- Whoever subscribes follows the opening that is in force. -/
theorem opening?_of_subscribe? {past : List Event} {host : Url} {language : Language}
    {number : Nat} (h : (after past).subscribe? host language = some number) :
    opening? host past = some number := by
  rw [← number_after]
  simp only [subscribe?, Option.bind_eq_bind, Option.bind_eq_some_iff] at h
  obtain ⟨o, ho, d, -, hn⟩ := h
  simpa [ho] using hn

/-! ## What the store holds was published -/

theorem host_of_mem_virtualUris {url : Url} {v : VirtualUri} (h : v ∈ virtualUris url) :
    v.host = url := by
  obtain ⟨language, -, hl⟩ := List.mem_filterMap.1 h
  exact (VirtualUri.host_language_of_of? hl).1

theorem nodup_virtualUris (url : Url) : (virtualUris url).Nodup := by
  refine List.Pairwise.filterMap (VirtualUri.of? url) ?_ (by decide : Language.embedded.Nodup)
  rintro l l' hne v hv v' hv' rfl
  exact hne ((VirtualUri.host_language_of_of? hv).2.symm.trans
    (VirtualUri.host_language_of_of? hv').2)

/-- An opening is that of a host, has the host's virtual documents, and each of them is new or was
published under the opening's number. -/
structure Accounted (past : List Event) (host : Url) (o : Opening) : Prop where
  numbered : (openings past)[o.number]? = some host
  named : o.virtuals.map (·.uri) = virtualUris host
  published : ∀ d ∈ o.virtuals, d.hostVersion ≠ none → Published past o.number d

namespace Accounted

variable {past : List Event} {host : Url} {o : Opening}

theorem later (h : Accounted past host o) (e : Event) : Accounted (e :: past) host o :=
  ⟨openings_getElem?_append h.numbered [e], h.named,
    fun d hd hv => (h.published d hd hv).append [e]⟩

theorem host_of_mem (h : Accounted past host o) {d : VirtualSnapshot} (hd : d ∈ o.virtuals) :
    d.host = host :=
  host_of_mem_virtualUris (h.named ▸ List.mem_map_of_mem hd)

end Accounted

/-- Every opening that the store knows is accounted for. -/
structure Accounts (past : List Event) (s : Store) : Prop where
  current : ∀ {host o}, (host, o) ∈ s.documents → Accounted past host o
  closed : ∀ {o}, o ∈ s.closed → ∃ host, Accounted past host o

namespace Accounts

variable {past : List Event} {s : Store}

theorem later (h : Accounts past s) (e : Event) : Accounts (e :: past) s :=
  ⟨fun ho => (h.current ho).later e,
    fun ho => (h.closed ho).imp fun _ ha => ha.later e⟩

theorem close (h : Accounts past s) (url : Url) : Accounts past (s.close url) := by
  unfold Store.close
  split
  · exact h
  · next o ho =>
    refine ⟨fun hm => h.current (Table.mem_erase hm), fun hm => ?_⟩
    rcases List.mem_cons.1 hm with rfl | hm
    · exact ⟨url, h.current (Table.mem_of_get? ho)⟩
    · exact h.closed hm

/-- Puts an opening that is accounted for in the place of another. -/
theorem set (h : Accounts past s) {s' : Store} {host : Url} {o : Opening}
    (ho : Accounted past host o) (hd : s'.documents = s.documents.set host o)
    (hc : s'.closed = s.closed) : Accounts past s' := by
  refine ⟨fun hm => ?_, fun hm => h.closed (hc ▸ hm)⟩
  rcases Table.mem_set (hd ▸ hm) with he | hm
  · cases he
    exact ho
  · exact h.current hm

end Accounts

theorem Accounted.new {past : List Event} {host : Url} {number : Nat}
    (hn : (openings past)[number]? = some host) (version : Int) (text : String) :
    Accounted past host ⟨number, version, text, (virtualUris host).map .empty⟩ := by
  refine ⟨hn, ?_, ?_⟩
  · simp [Function.comp_def, VirtualSnapshot.empty]
  · intro d hd hv
    obtain ⟨v, -, rfl⟩ := List.mem_map.1 hd
    exact absurd rfl hv

theorem Accounted.edited {past : List Event} {host : Url} {o : Opening}
    (h : Accounted past host o) (version : Int) (text : String) :
    Accounted past host { o with version, text } :=
  ⟨h.numbered, h.named, h.published⟩

/-- A document with the name of the one it replaces, published under the opening's number, keeps the
opening accounted for. -/
theorem Accounted.setVirtual {past : List Event} {host : Url} {o : Opening}
    (h : Accounted past host o) {d d₀ : VirtualSnapshot} (hd₀ : d₀ ∈ o.virtuals)
    (hu : d.uri = d₀.uri) (hd : Published past o.number d) :
    Accounted past host (o.setVirtual d) := by
  refine ⟨h.numbered, ?_, ?_⟩
  · rw [← h.named]
    simp only [Opening.setVirtual, List.map_map]
    refine List.map_congr_left fun e he => ?_
    simp only [Function.comp_apply]
    split
    · next hl =>
      refine VirtualUri.eq_of_host_language ?_ hl.symm
      rw [hu]
      exact (h.host_of_mem hd₀).trans (h.host_of_mem he).symm
    · rfl
  · intro e he hv
    obtain ⟨e₀, he₀, rfl⟩ := List.mem_map.1 he
    split at hv <;> split
    · exact hd
    · contradiction
    · contradiction
    · exact h.published e₀ he₀ hv

/-- What every store holds is accounted for by its history. -/
theorem accounts (past : List Event) : Accounts past (after past) := by
  induction past with
  | nil => exact ⟨nofun, nofun⟩
  | cons e past ih =>
    cases e with
    | opened url version text =>
      refine ((ih.close url).later _).set (Accounted.new ?_ version text) rfl rfl
      simp [openings, nextNumber_close, nextNumber_after]
    | edited url version changes =>
      simp only [after, step]
      split
      · next hs =>
        obtain ⟨o, text, ho, -, rfl, -⟩ := applyChanges_ok hs
        have ha := (ih.later (.edited url version changes)).current (Table.mem_of_get? ho)
        exact (ih.later _).set (ha.edited version text) rfl rfl
      · exact ih.later _
    | regenerated r =>
      simp only [after, step]
      split
      · next d hs =>
        cases d with
        | none =>
          rw [regenerate_none hs]
          exact ih.later _
        | some d =>
          obtain ⟨o, d₀, text, ho, hd₀, hd, hs'⟩ := regenerate_some hs
          have hn : opening? r.host past = some o.number := by rw [← number_after, ho]; rfl
          have published : Published (.regenerated r :: past) o.number d :=
            ⟨[], r, past, _, rfl, hs, hn⟩
          rw [hs']
          have ha := (ih.later (.regenerated r)).current (Table.mem_of_get? ho)
          exact (ih.later _).set
            (ha.setVirtual (Opening.mem_of_virtual? hd₀).1 (by rw [hd]) published) rfl rfl
      · exact ih.later _
    | closed url => exact (ih.close url).later _

/-- An open host's snapshot bears its URL and has its virtual documents. -/
theorem named_of_get? {past : List Event} {url : Url} {h : HostSnapshot}
    (hs : (after past).get? url = some h) :
    h.url = url ∧ h.virtuals.map (·.uri) = virtualUris url := by
  obtain ⟨o, ho, rfl⟩ := Option.map_eq_some_iff.1 hs
  exact ⟨rfl, ((accounts past).current (Table.mem_of_get? ho)).named⟩

/-- What subscribers of an opening see belongs to the host that was opened under its number, is the
document they asked for and, once it reflects any host version, was published under that opening. -/
theorem published_of_publication? {past : List Event} {number : Nat} {language : Language}
    {p : Publication} (h : (after past).publication? number language = some p) :
    (openings past)[number]? = some p.latest.host ∧ p.latest.language = language ∧
      (p.latest.hostVersion ≠ none → Published past number p.latest) := by
  have known : ∃ host o, Accounted past host o ∧ o.number = number ∧
      o.virtual? language = some p.latest := by
    unfold publication? at h
    split at h
    · next o ho =>
      obtain ⟨d, hd, rfl⟩ := Option.map_eq_some_iff.1 h
      obtain ⟨⟨host, o'⟩, hm, rfl⟩ := List.mem_map.1 (List.mem_of_find?_eq_some ho)
      exact ⟨host, o', (accounts past).current hm, by simpa using List.find?_some ho, hd⟩
    · simp only [Option.bind_eq_bind, Option.bind_eq_some_iff] at h
      obtain ⟨o, ho, h⟩ := h
      obtain ⟨d, hd, rfl⟩ := Option.map_eq_some_iff.1 h
      obtain ⟨host, ha⟩ := (accounts past).closed (List.mem_of_find?_eq_some ho)
      exact ⟨host, o, ha, by simpa using List.find?_some ho, hd⟩
  obtain ⟨host, o, ha, rfl, hd⟩ := known
  obtain ⟨hm, hl⟩ := Opening.mem_of_virtual? hd
  rw [ha.host_of_mem hm]
  exact ⟨ha.numbered, hl, ha.published _ hm⟩

end PolyglotLsp.Store
