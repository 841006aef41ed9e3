import PolyglotLsp.Proofs.Document.ReverseIndex

/-!
# What subscribers see

A subscriber follows one opening of a host by its number. Every number that was given out belongs to
the opening in force of its host or to a closed one, never to two (`opening?_of_mem`, `retired`), so
that a number always leads to what its opening published. Regenerations from older host versions are
ignored, hence the latest document of an opening reflects whatever any document published under it
reflects (`reflects`). `publication?_spec` puts the two together: a subscriber can go on looking
after the opening is closed, and no regeneration is ever lost on it.
-/

namespace PolyglotLsp.Store

/-! ## Numbers lead to one opening -/

theorem nodup_keys_after (past : List Event) : ((after past).documents.map (·.1)).Nodup := by
  have close {s : Store} (h : (s.documents.map (·.1)).Nodup) (url : Url) :
      ((s.close url).documents.map (·.1)).Nodup := by
    unfold Store.close
    split
    · exact h
    · exact Table.nodup_keys_erase h url
  induction past with
  | nil => exact List.nodup_nil
  | cons e past ih =>
    rw [after]
    cases e with
    | opened url version text => exact Table.nodup_keys_set (close ih url) ..
    | edited url version changes =>
      rcases step_edited (after past) url version changes with hs | ⟨o, text, -, hs⟩
      · rwa [hs]
      · rw [hs]
        exact Table.nodup_keys_set ih ..
    | regenerated r =>
      rcases step_regenerated (after past) r with ⟨hs, -⟩ | ⟨o, d₀, d, -, -, -, -, -, hs⟩
      · rwa [hs]
      · rw [hs]
        exact Table.nodup_keys_set ih ..
    | closed url => exact close ih url

theorem opening?_of_mem {past : List Event} {host : Url} {o : Opening}
    (h : (host, o) ∈ (after past).documents) : opening? host past = some o.number := by
  rw [← number_after, Table.get?_of_mem (nodup_keys_after past) h]
  rfl

theorem lt_length_openings {past : List Event} {number : Nat} {host : Url}
    (h : (openings past)[number]? = some host) : number < (openings past).length :=
  (List.getElem?_eq_some_iff.1 h).1

/-- A number is in force for the host that was opened under it, if for any. -/
theorem host_unique {past : List Event} {number : Nat} {host host' : Url}
    (h : opening? host past = some number) (h' : (openings past)[number]? = some host') :
    host = host' :=
  Option.some.inj ((openings_getElem?_of_opening? h).symm.trans h')

theorem closed_edited (s : Store) (url : Url) (version : Int) (changes : List ContentChange) :
    (s.step (.edited url version changes)).closed = s.closed := by
  rcases step_edited s url version changes with hs | ⟨_, _, -, hs⟩
  · rw [hs]
  · rw [hs]

theorem closed_regenerated (s : Store) (r : Regeneration) :
    (s.step (.regenerated r)).closed = s.closed := by
  rcases step_regenerated s r with ⟨hs, -⟩ | ⟨_, _, _, -, -, -, -, -, hs⟩
  · rw [hs]
  · rw [hs]

theorem mem_closed_close {s : Store} {url : Url} {o : Opening} (h : o ∈ (s.close url).closed) :
    s.documents.get? url = some o ∨ o ∈ s.closed := by
  unfold close at h
  split at h
  · exact .inr h
  · next o' ho =>
    rcases List.mem_cons.1 h with rfl | h
    · exact .inl ho
    · exact .inr h

theorem mem_closed_of_mem {s : Store} {url : Url} {o : Opening} (h : o ∈ s.closed) :
    o ∈ (s.close url).closed := by
  unfold close
  split
  · exact h
  · exact List.mem_cons_of_mem _ h

/-- The number of a closed opening never comes back into force. -/
theorem retired {past : List Event} {o : Opening} (ho : o ∈ (after past).closed) (host : Url) :
    opening? host past ≠ some o.number := by
  -- closing a host retires the number that was in force for it, and no other host's number
  have closing {past : List Event} (ih : ∀ o ∈ (after past).closed, ∀ host,
      opening? host past ≠ some o.number) {url : Url} {o : Opening}
      (ho : o ∈ ((after past).close url).closed) {host : Url} (hne : url ≠ host) :
      opening? host past ≠ some o.number := by
    intro hn
    rcases mem_closed_close ho with ho | ho
    · have numbered := ((accounts past).current (Table.mem_of_get? ho)).numbered
      exact hne (host_unique hn numbered).symm
    · exact ih o ho host hn
  induction past generalizing o host with
  | nil => cases ho
  | cons e past ih =>
    have ih o (ho : o ∈ (after past).closed) host := ih ho host
    rw [after] at ho
    cases e with
    | opened url version text =>
      simp only [opening?]
      split
      · intro hn
        have hn := Option.some.inj hn
        rcases mem_closed_close ho with ho | ho
        · have := lt_length_openings ((accounts past).current (Table.mem_of_get? ho)).numbered
          omega
        · obtain ⟨_, known⟩ := (accounts past).closed ho
          have := lt_length_openings known.numbered
          omega
      · next hne => exact closing ih ho hne
    | edited url version changes =>
      rw [closed_edited] at ho
      exact ih o ho host
    | regenerated r =>
      rw [closed_regenerated] at ho
      exact ih o ho host
    | closed url =>
      simp only [opening?]
      split
      · simp
      · next hne => exact closing ih ho hne

/-- Every number that was given out is in force or belongs to a closed opening. -/
theorem inForce_or_closed {past : List Event} {number : Nat} {host : Url}
    (h : (openings past)[number]? = some host) :
    opening? host past = some number ∨ ∃ o ∈ (after past).closed, o.number = number := by
  -- what is in force for a host is closed with it
  have closing {past : List Event} (ih : opening? host past = some number ∨
      ∃ o ∈ (after past).closed, o.number = number) :
      ∃ o ∈ ((after past).close host).closed, o.number = number := by
    rcases ih with hn | ⟨o, ho, hn⟩
    · rw [← number_after] at hn
      obtain ⟨o, ho, hn⟩ := Option.map_eq_some_iff.1 hn
      exact ⟨o, by simp [close, ho], hn⟩
    · exact ⟨o, mem_closed_of_mem ho, hn⟩
  induction past with
  | nil => simp [openings] at h
  | cons e past ih =>
    rw [after]
    cases e with
    | opened url version text =>
      simp only [openings] at h
      by_cases new : number = (openings past).length
      · subst new
        rw [List.getElem?_concat_length] at h
        cases h
        exact .inl (by simp [opening?])
      · have old : (openings past)[number]? = some host := by
          have bound := (List.getElem?_eq_some_iff.1 h).1
          rw [List.length_append, List.length_singleton] at bound
          rwa [List.getElem?_append_left (by omega)] at h
        simp only [opening?]
        split
        · next hu =>
          subst hu
          exact .inr (closing (ih old))
        · rcases ih old with hn | ⟨o, ho, hn⟩
          · exact .inl hn
          · exact .inr ⟨o, mem_closed_of_mem ho, hn⟩
    | edited url version changes =>
      rw [closed_edited]
      exact ih h
    | regenerated r =>
      rw [closed_regenerated]
      exact ih h
    | closed url =>
      simp only [opening?]
      split
      · next hu =>
        subst hu
        exact .inr (closing (ih h))
      · rcases ih h with hn | ⟨o, ho, hn⟩
        · exact .inl hn
        · exact .inr ⟨o, mem_closed_of_mem ho, hn⟩

/-! ## Nothing published is lost -/

theorem Opening.virtual?_setVirtual (o : Opening) (d : VirtualSnapshot) (language : Language) :
    (o.setVirtual d).virtual? language =
      (o.virtual? language).map fun e => if e.language = d.language then d else e := by
  unfold Opening.virtual? Opening.setVirtual
  rw [List.find?_map]
  congr 2
  funext e
  simp only [Function.comp_apply]
  split
  · next hl => rw [hl]
  · rfl

theorem Published.of_cons {e : Event} {past : List Event} {number : Nat} {d : VirtualSnapshot}
    (h : Published (e :: past) number d) :
    Published past number d ∨ ∃ r s, e = .regenerated r ∧
      (after past).regenerate r = .ok (s, some d) ∧ opening? r.host past = some number := by
  obtain ⟨later, r, earlier, s, hp, hr, hn⟩ := h
  cases later with
  | nil =>
    cases hp
    exact .inr ⟨r, s, rfl, hr, hn⟩
  | cons e' later =>
    cases hp
    exact .inl ⟨later, r, earlier, s, rfl, hr, hn⟩

/-- Documents are published under numbers that were given out. -/
theorem Published.lt {past : List Event} {number : Nat} {d : VirtualSnapshot}
    (h : Published past number d) : number < (openings past).length := by
  obtain ⟨later, r, earlier, s, rfl, -, hn⟩ := h
  have numbered := openings_getElem?_append (openings_getElem?_of_opening? hn)
    (later ++ [.regenerated r])
  rw [List.append_assoc] at numbered
  exact lt_length_openings numbered

/-- Whatever was published under an opening's number, the opening's document of that language
reflects the same host version or a later one. -/
def Reflects (past : List Event) (o : Opening) : Prop :=
  ∀ d, Published past o.number d → ∃ e v w, o.virtual? d.language = some e ∧
    d.hostVersion = some v ∧ e.hostVersion = some w ∧ v ≤ w

/-- Only regenerations publish anything. -/
theorem Reflects.other {past : List Event} {o : Opening} (h : Reflects past o) {e : Event}
    (he : ∀ r, e ≠ .regenerated r) : Reflects (e :: past) o := by
  intro d hd
  rcases hd.of_cons with hd | ⟨r, _, hr, -⟩
  · exact h d hd
  · exact absurd hr (he r)

/-- A regeneration of one opening publishes nothing under another. -/
theorem Reflects.elsewhere {past : List Event} {o : Opening} (h : Reflects past o)
    {r : Regeneration} (hn : opening? r.host past ≠ some o.number) :
    Reflects (.regenerated r :: past) o := by
  intro d hd
  rcases hd.of_cons with hd | ⟨r', _, hr, -, hr'⟩
  · exact h d hd
  · cases hr
    exact absurd hr' hn

/-- The opening of an accepted regeneration reflects it, and still reflects what it did before. -/
theorem Reflects.regenerated {past : List Event} {o : Opening} (h : Reflects past o)
    {r : Regeneration} {s : Store} {d d₀ : VirtualSnapshot}
    (ho : (after past).documents.get? r.host = some o) (hd₀ : o.virtual? r.language = some d₀)
    (hu : d.uri = d₀.uri) (hv : d.hostVersion = some r.hostVersion)
    (hr : (after past).regenerate r = .ok (s, some d)) :
    Reflects (.regenerated r :: past) (o.setVirtual d) := by
  have language₀ : d₀.language = r.language := (Opening.mem_of_virtual? hd₀).2
  have language : d.language = r.language := (congrArg VirtualUri.language hu).trans language₀
  have now : (o.setVirtual d).virtual? r.language = some d := by
    rw [Opening.virtual?_setVirtual, hd₀, Option.map_some, if_pos (language₀.trans language.symm)]
  intro d' hd'
  rcases hd'.of_cons with hd' | ⟨r', s', he, hr', -⟩
  · obtain ⟨e, v, w, he, hv', hw, hle⟩ := h d' hd'
    by_cases same : d'.language = r.language
    · rw [same, hd₀] at he
      cases he
      have := le_of_regenerate_some hr ho hd₀ hw
      exact ⟨d, v, r.hostVersion, by rw [same, now], hv', hv, by omega⟩
    · have other : e.language ≠ d.language := by
        rw [(Opening.mem_of_virtual? he).2, language]
        exact same
      exact ⟨e, v, w, by simp [Opening.virtual?_setVirtual, he, other], hv', hw, hle⟩
  · cases he
    rw [hr] at hr'
    cases hr'
    exact ⟨d, r.hostVersion, r.hostVersion, by rw [language, now], hv, hv, Int.le_refl _⟩

/-- Every opening that the store knows reflects what was published under it. -/
theorem reflects (past : List Event) :
    (∀ host o, (host, o) ∈ (after past).documents → Reflects past o) ∧
      ∀ o ∈ (after past).closed, Reflects past o := by
  induction past with
  | nil =>
    refine ⟨fun host o ho => ?_, fun o ho => ?_⟩
    · cases ho
    · cases ho
  | cons e past ih =>
    obtain ⟨current, closed⟩ := ih
    have closing (url : Url) : (∀ host o, (host, o) ∈ ((after past).close url).documents →
        Reflects past o) ∧ ∀ o ∈ ((after past).close url).closed, Reflects past o := by
      refine ⟨fun host o ho => ?_, fun o ho => ?_⟩
      · unfold close at ho
        split at ho
        · exact current host o ho
        · exact current host o (Table.mem_erase ho)
      · rcases mem_closed_close ho with ho | ho
        · exact current url o (Table.mem_of_get? ho)
        · exact closed o ho
    rw [after]
    cases e with
    | opened url version text =>
      refine ⟨fun host o ho => ?_, fun o ho => ((closing url).2 o ho).other (by simp)⟩
      rcases Table.mem_set ho with he | ho
      · cases he
        -- nothing was published under a number that is given out only now
        intro d hd
        rcases hd.of_cons with hd | ⟨_, _, hr, -⟩
        · have := hd.lt
          simp only [nextNumber_close, nextNumber_after] at this
          omega
        · cases hr
      · exact ((closing url).1 host o ho).other (by simp)
    | edited url version changes =>
      rw [closed_edited]
      refine ⟨fun host o ho => ?_, fun o ho => (closed o ho).other (by simp)⟩
      refine Reflects.other ?_ (by simp)
      rcases step_edited (after past) url version changes with hs | ⟨o', text, ho', hs⟩
      · rw [hs] at ho
        exact current host o ho
      · rw [hs] at ho
        rcases Table.mem_set ho with he | ho
        · cases he
          exact current url o' (Table.mem_of_get? ho')
        · exact current host o ho
    | regenerated r =>
      rw [closed_regenerated]
      refine ⟨fun host o ho => ?_, fun o ho => (closed o ho).elsewhere (retired ho r.host)⟩
      rcases step_regenerated (after past) r with
        ⟨hs, refused⟩ | ⟨o', d₀, d, ho', hd₀, hu, hv, hr, hs⟩
      · rw [hs] at ho
        intro d hd
        rcases hd.of_cons with hd | ⟨_, s, he, hr, -⟩
        · exact current host o ho d hd
        · cases he
          exact absurd hr (refused s d)
      · have found := Table.get?_of_mem (nodup_keys_after (.regenerated r :: past)) ho
        rw [after, hs, Table.get?_set] at found
        split at found
        · cases found
          exact (current r.host o' (Table.mem_of_get? ho')).regenerated ho' hd₀ hu hv hr
        · next hne =>
          have mem := Table.mem_of_get? found
          refine (current host o mem).elsewhere fun hn => hne ?_
          exact host_unique hn ((accounts past).current mem).numbered
    | closed url =>
      exact ⟨fun host o ho => ((closing url).1 host o ho).other (by simp),
        fun o ho => ((closing url).2 o ho).other (by simp)⟩

/-! ## Looking a number up -/

theorem find?_documents {past : List Event} {number : Nat} {host : Url}
    (h : opening? host past = some number) :
    ((after past).documents.map (·.2)).find? (·.number = number) =
      (after past).documents.get? host := by
  have hn := h
  rw [← number_after] at hn
  obtain ⟨o, ho, hn⟩ := Option.map_eq_some_iff.1 hn
  have present : o ∈ (after past).documents.map (·.2) :=
    List.mem_map.2 ⟨(host, o), Table.mem_of_get? ho, rfl⟩
  have found : (((after past).documents.map (·.2)).find? (·.number = number)).isSome := by
    rw [List.find?_isSome]
    exact ⟨o, present, by simpa using hn⟩
  obtain ⟨o', ho'⟩ := Option.isSome_iff_exists.1 found
  obtain ⟨⟨host', o''⟩, mem, rfl⟩ := List.mem_map.1 (List.mem_of_find?_eq_some ho')
  have number' : o''.number = number := by simpa using List.find?_some ho'
  have same := host_unique h (number' ▸ ((accounts past).current mem).numbered)
  rw [ho', same, Table.get?_of_mem (nodup_keys_after past) mem]

theorem find?_documents_eq_none {past : List Event} {number : Nat}
    (h : ∀ host, opening? host past ≠ some number) :
    ((after past).documents.map (·.2)).find? (·.number = number) = none := by
  rw [List.find?_eq_none]
  intro o ho hn
  obtain ⟨⟨host, _⟩, mem, rfl⟩ := List.mem_map.1 ho
  refine h host ?_
  rw [opening?_of_mem mem]
  simpa using hn

/-- What a number leads to: the opening in force, or a closed one. -/
theorem publication?_cases {past : List Event} {number : Nat} {host : Url}
    (h : (openings past)[number]? = some host) (language : Language) :
    ∃ o live, (after past).publication? number language =
        (o.virtual? language).map (⟨·, live⟩) ∧
      o.number = number ∧ Accounted past host o ∧ Reflects past o ∧
      (live = true ↔ opening? host past = some number) := by
  by_cases hn : opening? host past = some number
  · have found := find?_documents hn
    rw [← number_after] at hn
    obtain ⟨o, ho, number⟩ := Option.map_eq_some_iff.1 hn
    have mem := Table.mem_of_get? ho
    rw [ho] at found
    refine ⟨o, true, by simp [publication?, found], number, (accounts past).current mem,
      (reflects past).1 host o mem, ?_⟩
    simp [← number_after, ho, number]
  · have nowhere : ∀ host', opening? host' past ≠ some number := by
      intro host' hn'
      exact hn (host_unique hn' h ▸ hn')
    obtain ⟨o₀, ho₀, hn₀⟩ := (inForce_or_closed h).resolve_left hn
    obtain ⟨o, ho⟩ : ∃ o, (after past).closed.find? (·.number = number) = some o := by
      rw [← Option.isSome_iff_exists, List.find?_isSome]
      exact ⟨o₀, ho₀, by simpa using hn₀⟩
    have mem := List.mem_of_find?_eq_some ho
    have number' : o.number = number := by simpa using List.find?_some ho
    obtain ⟨host', accounted⟩ := (accounts past).closed mem
    have same : host' = host := by
      have numbered := accounted.numbered
      rw [number', h] at numbered
      exact (Option.some.inj numbered).symm
    refine ⟨o, false, ?_, number', same ▸ accounted, (reflects past).2 o mem, by simp [hn]⟩
    simp [publication?, find?_documents_eq_none nowhere, ho]

/-- Whoever follows an opening sees its document for as long as it looks, knows whether the opening
is still in force, and sees a host version reflected as soon as any regeneration that was accepted
under the opening reflects it. -/
theorem publication?_spec {past : List Event} {number : Nat} {host : Url}
    (h : (openings past)[number]? = some host) {language : Language}
    (hl : language ∈ Language.embedded) :
    ∃ p, (after past).publication? number language = some p ∧
      (p.live = true ↔ opening? host past = some number) ∧
      ∀ expected, p.latest.isSynchronizedWith expected = true ↔
        ∃ d, Published past number d ∧ d.language = language ∧
          d.isSynchronizedWith expected = true := by
  obtain ⟨o, live, hp, rfl, accounted, reflects, hlive⟩ := publication?_cases h language
  obtain ⟨e, he⟩ := accounted.exists_virtual? hl
  obtain ⟨mem, language'⟩ := Opening.mem_of_virtual? he
  refine ⟨⟨e, live⟩, by rw [hp, he]; rfl, hlive, fun expected => ⟨fun hs => ?_, ?_⟩⟩
  · have known : e.hostVersion ≠ none := by
      intro hn
      simp [VirtualSnapshot.isSynchronizedWith, hn] at hs
    exact ⟨e, accounted.published e mem known, language', hs⟩
  · rintro ⟨d, hd, rfl, hs⟩
    obtain ⟨e', v, w, he', hv, hw, hle⟩ := reflects d hd
    rw [he] at he'
    cases he'
    simp only [VirtualSnapshot.isSynchronizedWith, hv, hw, decide_eq_true_eq] at hs ⊢
    omega

/-! ## How long an opening is in force -/

/-- The end of whatever opening of a host is in force: its host is closed or opened again. -/
def Interrupts (host : Url) : Event → Prop
  | .opened url _ _ | .closed url => url = host
  | .edited .. | .regenerated _ => False

/-- An opening stays in force until its host is closed or opened again, and never comes back. -/
theorem opening?_append_iff {earlier : List Event} {host : Url} {number : Nat}
    (h : opening? host earlier = some number) (during : List Event) :
    opening? host (during ++ earlier) = some number ↔ ¬ ∃ e ∈ during, Interrupts host e := by
  induction during with
  | nil => simp [h]
  | cons e during ih =>
    simp only [List.mem_cons, exists_eq_or_imp, not_or, List.cons_append, ← ih]
    cases e with
    | opened url version text =>
      simp only [opening?, Interrupts]
      split
      · next hu =>
        -- the new opening has a number of its own
        have given := lt_length_openings
          (openings_getElem?_append (openings_getElem?_of_opening? h) during)
        simp only [Option.some.injEq, hu, not_true_eq_false, false_and, iff_false]
        omega
      · next hu => simp [hu]
    | closed url =>
      simp only [opening?, Interrupts]
      split
      · next hu => simp [hu]
      · next hu => simp [hu]
    | edited | regenerated => simp [opening?, Interrupts]

end PolyglotLsp.Store
