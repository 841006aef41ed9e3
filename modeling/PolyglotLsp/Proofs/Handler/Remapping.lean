import PolyglotLsp.Proofs.Session.Yields
import PolyglotLsp.Router.Mapping
import PolyglotLsp.Scenario.Sample

/-!
# Locations one by one

Locations of one virtual document are taken back to their host together. If the store stands still
and the mapping service answers for each range by itself (`RangeService`), this makes no difference:
the service has one answer for each location (`RangeService.locate?`), each location of a virtual
document gets its own one (`Mapping.place_eq_flatMap`), and so many locations become what they
become one by one (`Mapping.remapLocations_eq_flatMap`).
-/

namespace PolyglotLsp

variable {σ : Type} {c : Collaborators σ} {store : Store}

/-- A mapping service that answers for each range by itself: whether it knows a document, and under
which stamp, and where a range lies. -/
structure RangeService where
  stamp? : Language → Url → Option (Option Int)
  image? : Language → Url → Range → Option Range

namespace RangeService

variable (service : RangeService)

def answer (language : Language) (host : Url) (ranges : List Range) : Option MappedRanges :=
  (service.stamp? language host).map fun stamp => ⟨ranges.map (service.image? language host), stamp⟩

/-- The collaborators' mapping service answers like this one, without fail. -/
def Serves (c : Collaborators σ) : Prop :=
  ∀ outside language host ranges,
    (c.mapRanges outside language host ranges).2.value = .ok (service.answer language host ranges)

/-- The version under which an answer of the service counts. -/
def version? (store : Store) (language : Language) (host : Url) (expected : Int) : Option Int := do
  let stamp ← service.stamp? language host
  if stamp = some expected ∧ store.hostVersion? host = some expected then some expected else none

/-- The host and language of a virtual document about which the service's answers count, and the
version under which they do. -/
def known? (store : Store) (url : Url) : Option (Url × Language × Int) :=
  (store.resolve? url).bind fun (host, language) =>
    (store.hostVersion? host).bind fun expected =>
      (service.version? store language host expected).map fun version => (host, language, version)

/-- Where ranges of a virtual document lie in its host. -/
def mapped? (store : Store) (url : Url) (ranges : List Range) : Option (Uri × Mapping.HostRanges) :=
  (service.known? store url).bind fun (host, language, version) =>
    host.toUri?.map fun uri => (uri, ⟨ranges.map (service.image? language host), version⟩)

/-- Where a range of a virtual document lies in its host. -/
def locate? (store : Store) (url : Url) (range : Range) : Option Location :=
  (service.known? store url).bind fun (host, language, _) =>
    host.toUri?.bind fun uri => (service.image? language host range).map fun image => ⟨uri, image⟩

/-- What becomes of a single location. -/
def remapped (store : Store) (l : Location) : List Location :=
  match Mapping.virtualUrl? l.uri with
  | none => [l]
  | some url => (service.locate? store url l.range).toList

variable {service}

theorem of_locate? {url : Url} {range : Range} {l : Location}
    (h : service.locate? store url range = some l) :
    ∃ host language, store.resolve? url = some (host, language) ∧ host.toUri? = some l.uri ∧
      service.image? language host range = some l.range := by
  obtain ⟨⟨host, language, version⟩, known, h⟩ := Option.bind_eq_some_iff.1 h
  obtain ⟨uri, named, h⟩ := Option.bind_eq_some_iff.1 h
  obtain ⟨image, found, rfl⟩ := Option.map_eq_some_iff.1 h
  obtain ⟨⟨host', language'⟩, resolved, known⟩ := Option.bind_eq_some_iff.1 known
  obtain ⟨expected, -, known⟩ := Option.bind_eq_some_iff.1 known
  obtain ⟨_, -, same⟩ := Option.map_eq_some_iff.1 known
  cases same
  exact ⟨host, language, resolved, named, found⟩

end RangeService

/-- A table that gives each of its keys a value finds it. -/
theorem Table.get?_map_of_mem {κ β : Type} [DecidableEq κ] (value : κ → β) {keys : List κ} {k : κ}
    (h : k ∈ keys) : Table.get? (keys.map fun k => (k, value k)) k = some (value k) := by
  induction keys with
  | nil => cases h
  | cons k' keys ih =>
    rw [List.map_cons, Table.get?]
    split
    · next same => rw [same]
    · next other =>
      rcases List.mem_cons.1 h with same | h
      · exact absurd same.symm other
      · exact ih h

namespace Op

theorem yields_hostVersion (url : Url) :
    (Op.hostVersion url).Yields c store (store.hostVersion? url) := by
  intro w hw
  simp only [World.start, hw]
  rfl

theorem yields_resolveVirtual (url : Url) :
    (Op.resolveVirtual url).Yields c store (store.resolve? url) := by
  intro w hw
  simp only [World.start, hw]
  rfl

theorem yields_mapRanges {service : RangeService} (serves : service.Serves c) (language : Language)
    (host : Url) (ranges : List Range) :
    (Op.mapRanges language host ranges).Yields c store
      (some (.ok (service.answer language host ranges))) := by
  intro w _
  rw [← serves w.outside]
  exact sure_mapRanges c w language host ranges

end Op

namespace Mapping

variable {service : RangeService}

section Serves

variable (serves : service.Serves c)

include serves

theorem yields_mapRanges (language : Language) (host : Url) (ranges : List Range) (expected : Int) :
    (mapRanges language host ranges expected).Yields c store
      ((service.version? store language host expected).map fun version =>
        ⟨ranges.map (service.image? language host), version⟩) := by
  refine (Action.Yields.call (Op.yields_mapRanges serves language host ranges)).bind ?_
  refine (Action.Yields.ofExcept _).bind ?_
  rw [RangeService.answer, RangeService.version?]
  cases service.stamp? language host with
  | none => exact .pure _
  | some stamp =>
    have checked : (isCurrent host stamp expected).Yields c store
        (stamp == some expected && store.hostVersion? host == some expected) :=
      (Action.Yields.call (Op.yields_hostVersion host)).bind (.pure _)
    refine checked.bind ?_
    by_cases current : stamp = some expected ∧ store.hostVersion? host = some expected
    · simp only [current, beq_self_eq_true, Bool.and_self, if_true, List.length_map,
        Option.bind_eq_bind, Option.bind_some, and_self, Option.map_some]
      exact .pure _
    · have stale :
          (stamp == some expected && store.hostVersion? host == some expected) = false := by
        simpa using current
      simp only [stale, Bool.false_eq_true, if_false, Option.bind_eq_bind, Option.bind_some,
        current, Option.map_none]
      exact .pure _

theorem yields_mapVirtualRanges (url : Url) (ranges : List Range) :
    (mapVirtualRanges url ranges).Yields c store
      ((service.known? store url).map fun (host, language, version) =>
        (host, ⟨ranges.map (service.image? language host), version⟩)) := by
  unfold RangeService.known?
  refine (Action.Yields.call (Op.yields_resolveVirtual url)).bind ?_
  rcases store.resolve? url with _ | ⟨host, language⟩
  · exact .pure _
  simp only [Option.bind_some]
  refine (Action.Yields.call (Op.yields_hostVersion host)).bind ?_
  cases store.hostVersion? host with
  | none => exact .pure _
  | some expected =>
    simp only [Option.bind_some]
    refine (yields_mapRanges serves language host ranges expected).bind ?_
    cases service.version? store language host expected <;> exact .pure _

theorem yields_mapVirtual (url : Url) (ranges : List Range) :
    (mapVirtual url ranges).Yields c store (service.mapped? store url ranges) := by
  unfold RangeService.mapped?
  refine (yields_mapVirtualRanges serves url ranges).bind ?_
  rcases service.known? store url with _ | ⟨host, language, version⟩
  · exact .pure _
  simp only [Option.bind_eq_bind, Option.bind_some, Option.map_some]
  cases host.toUri? <;> exact .pure _

end Serves

theorem groupLocations_mapped (url : Url) (ranges : List Range) :
    groupLocations ranges.length (service.mapped? store url ranges) =
      ranges.map (service.locate? store url) := by
  unfold RangeService.mapped? RangeService.locate?
  rcases service.known? store url with _ | ⟨host, language, version⟩
  · simp [groupLocations]
  simp only [Option.bind_some]
  cases host.toUri? with
  | none => simp [groupLocations]
  | some uri => simp [groupLocations]

/-- Each location of a virtual document takes its own place. -/
theorem place_eq_flatMap {mapped : Table Url (List (Option Location))} {locations : List Location}
    (h : ∀ l ∈ locations, ∀ url, virtualUrl? l.uri = some url → mapped.get? url =
      some ((locations.filter fun l => virtualUrl? l.uri = some url).map fun l =>
        service.locate? store url l.range)) :
    place mapped locations = locations.flatMap (service.remapped store) := by
  induction locations generalizing mapped with
  | nil => rfl
  | cons l rest ih =>
    rw [List.flatMap_cons, RangeService.remapped]
    cases named : virtualUrl? l.uri with
    | none =>
      simp only [place, named, List.singleton_append, List.cons.injEq, true_and]
      refine ih fun l' hl' url named' => ?_
      rw [h l' (List.mem_cons_of_mem _ hl') url named', List.filter_cons, named]
      rfl
    | some url =>
      -- The first answer for this document is that of `l`; taking it away leaves the answers for
      -- the locations after `l`, and those for other documents.
      have found := h l List.mem_cons_self url named
      rw [List.filter_cons, if_pos (decide_eq_true named), List.map_cons] at found
      simp only [place, named, found]
      congr 1
      refine ih fun l' hl' url' named' => ?_
      rw [Table.get?_set]
      split
      · next same =>
        subst same
        rfl
      · next other =>
        rw [h l' (List.mem_cons_of_mem _ hl') url' named', List.filter_cons, if_neg]
        simpa [named] using other

/-- The answers for all virtual documents of the locations. -/
def answers (service : RangeService) (store : Store) (locations : List Location) :
    Table Url (List (Option Location)) :=
  (locations.filterMap fun l => virtualUrl? l.uri).eraseDups.map fun url =>
    (url, (locations.filter fun l => virtualUrl? l.uri = some url).map fun l =>
      service.locate? store url l.range)

theorem get?_answers {locations : List Location} {l : Location} (hl : l ∈ locations) {url : Url}
    (named : virtualUrl? l.uri = some url) :
    (answers service store locations).get? url =
      some ((locations.filter fun l => virtualUrl? l.uri = some url).map fun l =>
        service.locate? store url l.range) := by
  exact Table.get?_map_of_mem _ (List.mem_eraseDups.2 (List.mem_filterMap.2 ⟨l, hl, named⟩))

theorem yields_remapLocations (serves : service.Serves c) (locations : List Location) :
    (remapLocations locations).Yields c store (locations.flatMap (service.remapped store)) := by
  rw [← place_eq_flatMap fun l hl url named => get?_answers hl named]
  refine (Action.Yields.mapM _ fun url _ => ?_).bind (.pure _)
  refine (yields_mapVirtual serves url _).bind ?_
  rw [groupLocations_mapped, List.map_map]
  exact .pure _

/-- Locations that are taken back together become what they become one by one, if the store stands
still and the mapping service answers for each range by itself. -/
theorem remapLocations_eq_flatMap (serves : service.Serves c) {looks : Nat → World σ}
    (still : Standstill store looks) (locations : List Location) :
    (∃ n, ((TaskState.ready (remapLocations locations).run).turns c
      ((List.range n).map fun i => (.own, looks i))).1 =
        .finished (.ok (locations.flatMap (service.remapped store)))) ∧
    ∀ l, (∃ n, ((TaskState.ready (remapLocations [l]).run).turns c
        ((List.range n).map fun i => (.own, looks i))).1 =
        .finished (.ok (service.remapped store l))) ∧
      (virtualUrl? l.uri = none → service.remapped store l = [l]) ∧
      ∀ url, virtualUrl? l.uri = some url → service.remapped store l = [] ∨
        ∃ host language uri range, store.resolve? url = some (host, language) ∧
          host.toUri? = some uri ∧ service.image? language host l.range = some range ∧
          service.remapped store l = [⟨uri, range⟩] := by
  refine ⟨(yields_remapLocations serves locations).exists_finished still, fun l => ⟨?_, ?_, ?_⟩⟩
  · have single := (yields_remapLocations serves [l]).exists_finished still
    rwa [List.flatMap_singleton] at single
  · intro ordinary
    rw [RangeService.remapped, ordinary]
  · intro url named
    simp only [RangeService.remapped, named]
    cases found : service.locate? store url l.range with
    | none => exact .inl rfl
    | some l' =>
      obtain ⟨host, language, resolved, uri, image⟩ := RangeService.of_locate? found
      exact .inr ⟨host, language, l'.uri, l'.range, resolved, uri, image, rfl⟩

end Mapping

/-! ## Locations of the sample -/

open Scenario Scenario.Sample

namespace Scenario.Sample

/-- A mapping service that takes five moments and leaves ranges where they are, but knows no place
for those on the third line. -/
def steadyMapping : MappingScript :=
  { (script (some 1) []).mapping with delay := 5, unmappable := [2] }

def steadyService : RangeService where
  stamp? _ host := some (steadyMapping.versionOf host)
  image? _ _ := steadyMapping.range?

/-- Collaborators of which the mapping service is always the same. -/
def steady : Collaborators Script :=
  { Script.collaborators with
    mapRanges := fun s _ host ranges => (s, steadyMapping.mapRanges host ranges) }

theorem serves_steady : steadyService.Serves steady := by
  intro outside language host ranges
  simp [steady, steadyMapping, script, MappingScript.mapRanges, MappingScript.keep,
    RangeService.answer, steadyService]

/-- The host is open at its first version. -/
def steadyWorld (now : Nat) : World Script where
  core := { Core.new with store := Store.empty.openDocument hostUrl 1 "@word" }
  outside := script (some 1) []
  now
  traffic := []

theorem standstill_steady : Standstill (steadyWorld 0).core.store steadyWorld :=
  ⟨fun _ => rfl, fun moment n => ⟨max n moment, Nat.le_max_left .., Nat.le_max_right ..⟩⟩

/-- Places of code between others, one of them on the third line. -/
def mixed : List Location :=
  [⟨codeFile, word⟩, elsewhere, ⟨codeFile, ⟨⟨2, 0⟩, ⟨2, 4⟩⟩⟩, ⟨codeFile, ⟨⟨1, 0⟩, ⟨1, 4⟩⟩⟩]

end Scenario.Sample

theorem Mapping.remapLocations_eq_flatMap_mixed :
    ∃ n, ((TaskState.ready (Mapping.remapLocations mixed).run).turns steady
      ((List.range n).map fun i => (.own, steadyWorld i))).1 =
        .finished (.ok [⟨hostUri, word⟩, elsewhere, ⟨hostUri, ⟨⟨1, 0⟩, ⟨1, 4⟩⟩⟩]) := by
  have mapped := (Mapping.remapLocations_eq_flatMap serves_steady standstill_steady mixed).1
  have places : mixed.flatMap (steadyService.remapped (steadyWorld 0).core.store) =
      [⟨hostUri, word⟩, elsewhere, ⟨hostUri, ⟨⟨1, 0⟩, ⟨1, 4⟩⟩⟩] := by decide +kernel
  rwa [places] at mapped

end PolyglotLsp
