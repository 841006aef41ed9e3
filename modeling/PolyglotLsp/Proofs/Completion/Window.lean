import PolyglotLsp.Proofs.Completion.ContextCache

/-!
# The window of remembered origins

Lists are remembered and the room for them is changed, in any order. Every list is logged under the
number that is given back for it. A cache holds the end of this log (`Windowed`): remembering a list
adds it to the log and to the cache, and whatever has to make room is taken from the front of the
cache (`Windowed.insert`, `Windowed.setCapacity`), so that a number finds its origin exactly as long
as it lies in the window (`remembered_window`).
-/

namespace PolyglotLsp.ContextCache

variable {cache : ContextCache} {logged : List (Nat × CompletionContext)}

inductive Event where
  | inserted (context : CompletionContext)
  | resized (capacity : Nat)

def step (cache : ContextCache) : Event → ContextCache
  | .inserted context => (cache.insert context).1
  | .resized capacity => cache.setCapacity capacity

/-- An empty cache after a history, which lists the latest event first. -/
def after (capacity : Nat) : List Event → ContextCache
  | [] => new capacity
  | e :: past => (after capacity past).step e

/-- All insertions, the first one first, with the numbers that they were given. -/
def log (capacity : Nat) : List Event → List (Nat × CompletionContext)
  | [] => []
  | .inserted context :: past =>
    log capacity past ++ [(((after capacity past).insert context).2, context)]
  | .resized _ :: past => log capacity past

/-- The room that was asked for last. -/
def requested (capacity : Nat) : List Event → Nat
  | [] => capacity
  | .inserted _ :: past => requested capacity past
  | .resized capacity' :: _ => capacity'

/-! ## Sizes -/

theorem length_newest {α : Type} (n : Nat) (entries : List α) :
    (newest n entries).length = min n entries.length := by
  rw [newest, List.length_drop]
  omega

theorem newest_suffix {α : Type} (n : Nat) (entries : List α) : newest n entries <:+ entries :=
  List.drop_suffix ..

theorem size_setCapacity (cache : ContextCache) (capacity : Nat) :
    (cache.setCapacity capacity).size = min cache.size (max capacity 1) := by
  simp only [size, setCapacity, length_newest]
  omega

theorem size_insert (room : 1 ≤ cache.capacity) (context : CompletionContext) :
    (cache.insert context).1.size = min (cache.size + 1) cache.capacity := by
  simp only [size, insert, List.length_append, List.length_singleton, length_newest]
  omega

/-! ## The end of the log -/

/-- A cache holds the end of a log, in which insertions are numbered in order. -/
structure Windowed (logged : List (Nat × CompletionContext)) (cache : ContextCache) : Prop where
  suffix : cache.entries <:+ logged
  room : 1 ≤ cache.capacity
  fits : cache.size ≤ cache.capacity
  numbered : logged.map (·.1) = List.range' 1 logged.length
  next : cache.nextId = logged.length + 1

namespace Windowed

theorem increasing (h : Windowed logged cache) : logged.Pairwise (·.1 < ·.1) := by
  have numbers : (logged.map (·.1)).Pairwise (· < ·) := by
    rw [h.numbered]
    exact List.pairwise_lt_range' ..
  exact List.pairwise_map.1 numbers

theorem ordered (h : Windowed logged cache) : cache.Ordered := by
  refine ⟨h.increasing.sublist h.suffix.sublist, fun e he => ?_⟩
  have number : e.1 ∈ logged.map (·.1) := List.mem_map_of_mem (h.suffix.mem he)
  rw [h.numbered, List.mem_range'_1] at number
  rw [h.next]
  omega

theorem entries_eq (h : Windowed logged cache) : cache.entries = newest cache.size logged :=
  List.suffix_iff_eq_drop.1 h.suffix

theorem new (capacity : Nat) : Windowed [] (ContextCache.new capacity) :=
  ⟨List.suffix_rfl, Nat.le_max_right .., Nat.zero_le _, rfl, rfl⟩

theorem setCapacity (h : Windowed logged cache) (capacity : Nat) :
    Windowed logged (cache.setCapacity capacity) where
  suffix := (newest_suffix ..).trans h.suffix
  room := Nat.le_max_right ..
  fits := by
    rw [size_setCapacity]
    exact Nat.min_le_right ..
  numbered := h.numbered
  next := h.next

theorem insert (h : Windowed logged cache) (context : CompletionContext) :
    Windowed (logged ++ [((cache.insert context).2, context)]) (cache.insert context).1 where
  suffix := by
    -- the cache loses entries at its front only, and both sides gain the same entry at their ends
    obtain ⟨evicted, split⟩ := (newest_suffix (cache.capacity - 1) cache.entries).trans h.suffix
    refine ⟨evicted, ?_⟩
    rw [← split]
    exact (List.append_assoc ..).symm
  room := h.room
  fits := by
    rw [size_insert h.room]
    exact Nat.min_le_right ..
  numbered := by
    rw [List.map_append, h.numbered, List.length_append, List.length_singleton,
      List.range'_concat]
    simp [ContextCache.insert, h.next, Nat.add_comm]
  next := by
    rw [List.length_append, List.length_singleton, ← h.next]
    rfl

end Windowed

theorem windowed_after (capacity : Nat) (past : List Event) :
    Windowed (log capacity past) (after capacity past) := by
  induction past with
  | nil => exact .new capacity
  | cons e past ih =>
    cases e with
    | inserted context => exact ih.insert context
    | resized capacity' => exact ih.setCapacity capacity'

theorem capacity_after (capacity : Nat) (past : List Event) :
    (after capacity past).capacity = max (requested capacity past) 1 := by
  induction past with
  | nil => rfl
  | cons e past ih =>
    cases e with
    | inserted context => exact ih
    | resized capacity' => rfl

theorem get?_eq_some_iff (h : cache.Ordered) {id : Nat} {context : CompletionContext} :
    cache.get? id = some context ↔ (id, context) ∈ cache.entries := by
  refine ⟨fun found => ?_, get?_of_mem h⟩
  obtain ⟨⟨number, _⟩, entry, rfl⟩ := Option.map_eq_some_iff.1 found
  have here : number = id := by simpa using List.find?_some entry
  rw [← here]
  exact List.mem_of_find?_eq_some entry

/-- Whatever is remembered and however the room for it changes, a cache holds the latest entries of
the log, under numbers that increase, and no more of them than it has room for, which is room for at
least one. Remembering a list adds one entry if there is room, and less room keeps as many entries
as fit. A number finds its origin if it is that of an entry held, and nothing otherwise. -/
theorem remembered_window (capacity : Nat) (past : List Event) :
    (log capacity past).Pairwise (·.1 < ·.1) ∧
    (after capacity past).entries = newest (after capacity past).size (log capacity past) ∧
    (after capacity past).capacity = max (requested capacity past) 1 ∧
    (after capacity past).size ≤ (after capacity past).capacity ∧
    (∀ context, (after capacity (.inserted context :: past)).size =
      min ((after capacity past).size + 1) (after capacity past).capacity) ∧
    (∀ room, (after capacity (.resized room :: past)).size =
      min (after capacity past).size (after capacity (.resized room :: past)).capacity) ∧
    (∀ id context, (after capacity past).get? id = some context ↔
      (id, context) ∈ newest (after capacity past).size (log capacity past)) ∧
    ∀ id, id ∉ (newest (after capacity past).size (log capacity past)).map (·.1) →
      (after capacity past).get? id = none := by
  have window := windowed_after capacity past
  have found (id : Nat) (context : CompletionContext) :
      (after capacity past).get? id = some context ↔
        (id, context) ∈ newest (after capacity past).size (log capacity past) := by
    rw [get?_eq_some_iff window.ordered, ← window.entries_eq]
  refine ⟨window.increasing, window.entries_eq, capacity_after capacity past, window.fits,
    size_insert window.room, size_setCapacity _, found, fun id absent => ?_⟩
  rw [Option.eq_none_iff_forall_ne_some]
  intro context held
  exact absent (List.mem_map.2 ⟨(id, context), (found id context).1 held, rfl⟩)

end PolyglotLsp.ContextCache
