import PolyglotLsp.Completion.ContextCache

/-!
# Which origins are remembered

Numbers are handed out in order and entries are kept in order (`Ordered`), so that there are no more
entries after an entry than numbers have been handed out since. An entry therefore stays as long as
fewer lists have been remembered since than there is room for (`mem_insert`, `mem_setCapacity`), and
whoever asks for its number gets it (`get?_of_mem`).
-/

namespace PolyglotLsp.ContextCache

variable {β : Type} {cache : ContextCache}

/-! ## The newest entries -/

theorem add_length_lt {entries : List (Nat × β)} (increasing : entries.Pairwise (·.1 < ·.1))
    {low high : Nat} (above : ∀ e ∈ entries, low < e.1) (below : ∀ e ∈ entries, e.1 < high)
    (room : low < high) : low + entries.length < high := by
  induction entries generalizing low with
  | nil => exact room
  | cons e rest ih =>
    obtain ⟨after, rest_increasing⟩ := List.pairwise_cons.1 increasing
    have fits : e.1 + rest.length < high :=
      ih rest_increasing after (fun e' he' => below e' (List.mem_cons_of_mem _ he'))
        (below e List.mem_cons_self)
    have first := above e List.mem_cons_self
    rw [List.length_cons]
    omega

theorem mem_newest {entries : List (Nat × β)} (increasing : entries.Pairwise (·.1 < ·.1))
    {high : Nat} (below : ∀ e ∈ entries, e.1 < high) {e : Nat × β} (he : e ∈ entries) {n : Nat}
    (room : high ≤ e.1 + n) : e ∈ newest n entries := by
  obtain ⟨older, newer, rfl⟩ := List.append_of_mem he
  have few : e.1 + newer.length < high := by
    have tail : (e :: newer).Pairwise (·.1 < ·.1) := (List.pairwise_append.1 increasing).2.1
    refine add_length_lt tail.of_cons (List.pairwise_cons.1 tail).1 (fun e' he' => ?_) (below e he)
    exact below e' (by simp [he'])
  have dropped : (older ++ e :: newer).length - n ≤ older.length := by
    rw [List.length_append, List.length_cons]
    omega
  rw [newest, List.drop_append_of_le_length dropped]
  exact List.mem_append_right _ List.mem_cons_self

theorem newest_sublist {α : Type} (n : Nat) (entries : List α) : (newest n entries).Sublist entries :=
  List.drop_sublist ..

/-! ## Entries in order -/

/-- The numbers of the entries increase and have been handed out. -/
structure Ordered (cache : ContextCache) : Prop where
  increasing : cache.entries.Pairwise (·.1 < ·.1)
  used : ∀ e ∈ cache.entries, e.1 < cache.nextId

theorem ordered_new (capacity : Nat) : (new capacity).Ordered :=
  ⟨.nil, fun _ he => absurd he List.not_mem_nil⟩

theorem Ordered.setCapacity (h : cache.Ordered) (capacity : Nat) :
    (cache.setCapacity capacity).Ordered :=
  ⟨h.increasing.sublist (newest_sublist ..), fun e he => h.used e ((newest_sublist ..).mem he)⟩

theorem Ordered.insert (h : cache.Ordered) (context : CompletionContext) :
    (cache.insert context).1.Ordered := by
  have older : ∀ e ∈ newest (cache.capacity - 1) cache.entries, e.1 < cache.nextId :=
    fun e he => h.used e ((newest_sublist ..).mem he)
  refine ⟨List.pairwise_append.2 ⟨h.increasing.sublist (newest_sublist ..),
    List.pairwise_singleton .., fun e he e' he' => ?_⟩, fun e he => ?_⟩
  · rw [List.mem_singleton.1 he']
    exact older e he
  · rcases List.mem_append.1 he with he | he
    · exact Nat.lt_succ_of_lt (older e he)
    · rw [List.mem_singleton.1 he]
      exact Nat.lt_succ_self _

theorem mem_insert (h : cache.Ordered) {e : Nat × CompletionContext} (he : e ∈ cache.entries)
    (context : CompletionContext) (room : cache.nextId + 1 ≤ e.1 + cache.capacity) :
    e ∈ (cache.insert context).1.entries :=
  List.mem_append_left _ (mem_newest h.increasing h.used he (by omega))

theorem mem_insert_self (cache : ContextCache) (context : CompletionContext) :
    (cache.nextId, context) ∈ (cache.insert context).1.entries :=
  List.mem_append_right _ List.mem_cons_self

theorem mem_setCapacity (h : cache.Ordered) {e : Nat × CompletionContext} (he : e ∈ cache.entries)
    {capacity : Nat} (room : cache.nextId ≤ e.1 + max capacity 1) :
    e ∈ (cache.setCapacity capacity).entries := mem_newest h.increasing h.used he room

theorem get?_of_mem (h : cache.Ordered) {id : Nat} {context : CompletionContext}
    (he : (id, context) ∈ cache.entries) : cache.get? id = some context := by
  obtain ⟨older, newer, split⟩ := List.append_of_mem he
  have increasing := h.increasing
  rw [split, List.pairwise_append] at increasing
  have passed : older.find? (·.1 = id) = none := by
    refine List.find?_eq_none.2 fun e he' => ?_
    have before : e.1 < id := increasing.2.2 e he' _ List.mem_cons_self
    simpa using Nat.ne_of_lt before
  simp [get?, split, List.find?_append, passed]

end PolyglotLsp.ContextCache
