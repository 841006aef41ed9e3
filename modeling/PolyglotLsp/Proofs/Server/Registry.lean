import Mathlib.Data.List.Nodup
import Mathlib.Data.List.Perm.Basic
import PolyglotLsp.Server.Registry

/-!
# The servers of some content types

Whichever servers are registered, in whatever order, a registry keeps each under its own name and
has one entry per name (`oneEach_ofServers`). So the servers of some content types are the
registered servers that serve one of them, each of them once: whoever looks for a name among them
finds it exactly if the server of that name serves one of the types (`filterMap_serversFor`).
-/

namespace PolyglotLsp.Registry

/-- The registry of servers that were registered one after the other. -/
def ofServers (servers : List Server) : Registry := servers.foldl register .empty

/-- One entry per name, and every server under its own. -/
structure OneEach (r : Registry) : Prop where
  distinct : (r.servers.map (·.1)).Nodup
  named : ∀ e ∈ r.servers, e.1 = e.2.name

theorem OneEach.register {r : Registry} (h : r.OneEach) (s : Server) : (r.register s).OneEach := by
  refine ⟨Table.nodup_keys_set h.distinct s.name s, ?_⟩
  intro e he
  rcases Table.mem_set he with rfl | he
  · rfl
  · exact h.named e he

theorem OneEach.unregister {r : Registry} (h : r.OneEach) (name : String) :
    (r.unregister name).1.OneEach :=
  ⟨h.distinct.sublist (List.filter_sublist.map _), fun e he => h.named e (List.mem_filter.1 he).1⟩

theorem oneEach_ofServers (servers : List Server) : (ofServers servers).OneEach := by
  have extended (r : Registry) (h : r.OneEach) : (servers.foldl Registry.register r).OneEach := by
    induction servers generalizing r with
    | nil => exact h
    | cons s servers ih => exact ih (r.register s) (h.register s)
  exact extended .empty ⟨List.nodup_nil, nofun⟩

namespace OneEach

variable {r : Registry} {contentTypes : List String}

theorem mem_serversFor (h : r.OneEach) {s : Server} :
    s ∈ r.serversFor contentTypes ↔
      r.get? s.name = some s ∧ contentTypes.any s.serves = true := by
  simp only [serversFor, List.mem_mergeSort, List.mem_filter, List.mem_map]
  refine and_congr_left fun _ => ⟨?_, ?_⟩
  · rintro ⟨e, he, rfl⟩
    exact Table.get?_of_mem h.distinct (h.named e he ▸ he)
  · intro found
    exact ⟨_, Table.mem_of_get? found, rfl⟩

theorem nodup_names (h : r.OneEach) : ((r.serversFor contentTypes).map (·.name)).Nodup := by
  have names : r.servers.map (·.2.name) = r.servers.map (·.1) :=
    List.map_congr_left fun e he => (h.named e he).symm
  have all : ((r.servers.map (·.2)).map (·.name)).Nodup := by
    rw [List.map_map, Function.comp_def, names]
    exact h.distinct
  have served : (((r.servers.map (·.2)).filter fun s => contentTypes.any s.serves).map
      (·.name)).Nodup := all.sublist (List.filter_sublist.map _)
  exact ((List.mergeSort_perm _ _).map _).nodup_iff.2 served

end OneEach

theorem filterMap_name {α : Type} {servers : List Server}
    (distinct : (servers.map (·.name)).Nodup) (name : String) (o : Option α) :
    servers.filterMap (fun s => if s.name = name then o else none) =
      if name ∈ servers.map (·.name) then o.toList else [] := by
  induction servers with
  | nil => rfl
  | cons s servers ih =>
    rw [List.map_cons, List.nodup_cons] at distinct
    have rest := ih distinct.2
    by_cases first : s.name = name
    · subst first
      rw [if_neg distinct.1] at rest
      cases o <;> simp [rest]
    · simp [first, Ne.symm first, rest]

/-- A registered server is found among those of some content types once or not at all. -/
theorem OneEach.filterMap_serversFor {α : Type} {r : Registry} (h : r.OneEach) {server : Server}
    (registered : r.get? server.name = some server) (contentTypes : List String) (o : Option α) :
    (r.serversFor contentTypes).filterMap (fun s => if s.name = server.name then o else none) =
      if contentTypes.any server.serves then o.toList else [] := by
  have chosen : server.name ∈ (r.serversFor contentTypes).map (·.name) ↔
      contentTypes.any server.serves = true := by
    rw [List.mem_map]
    constructor
    · rintro ⟨s, hs, same⟩
      obtain ⟨found, serves⟩ := h.mem_serversFor.1 hs
      rw [same, registered] at found
      cases found
      exact serves
    · intro serves
      exact ⟨server, h.mem_serversFor.2 ⟨registered, serves⟩, rfl⟩
  rw [filterMap_name h.nodup_names]
  simp only [chosen]

end PolyglotLsp.Registry
