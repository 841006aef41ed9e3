import PolyglotLsp.Handler.Completion
import PolyglotLsp.Proofs.Handler.Mapping

/-!
# Completion items in replies

Every edit of every item of a completion list, its own as well as the additional ones, has its
ranges from an answer of the mapping service about the host as it was at the start of the request.
An item whose edit cannot be taken back has none, and the names of tag helpers come without edits.
-/

namespace PolyglotLsp

variable {σ : Type} {c : Collaborators σ} {I : List (Call σ) → Op → Prop}
  {calls calls' : List (Call σ)} {m : Moment σ}

/-- The ranges of all edits of an item. -/
def CompletionItem.ranges (i : CompletionItem) : List Range :=
  (i.textEdit.map ItemEdit.ranges).getD [] ++ (i.additionalTextEdits.getD []).map (·.range)

theorem CompletionItem.forall_mem_ranges {i : CompletionItem} {P : Range → Prop} :
    (∀ r ∈ i.ranges, P r) ↔
      (∀ edit, i.textEdit = some edit → ∀ r ∈ edit.ranges, P r) ∧
        ∀ edits, i.additionalTextEdits = some edits → ∀ e ∈ edits, P e.range := by
  unfold CompletionItem.ranges
  cases i.textEdit <;> cases i.additionalTextEdits <;> simp [or_imp, forall_and]

namespace Handler

theorem ranges_of_moveEdit? {edit moved : ItemEdit} {ranges : List (Option Range)}
    (h : moveEdit? edit ranges = some moved) : moved.ranges.map some = ranges := by
  unfold moveEdit? at h
  split at h <;> cases h <;> rfl

/-- An item that is moved has its ranges from those it was handed. -/
theorem mem_of_mem_moveItem {item : CompletionItem} {edit : ItemEdit}
    {ranges : List (Option Range)} {edit' : ItemEdit}
    (h : (moveItem item edit ranges).textEdit = some edit') {r : Range} (hr : r ∈ edit'.ranges) :
    some r ∈ ranges := by
  unfold moveItem at h
  split at h
  · next moved hmoved =>
    cases h
    rw [← ranges_of_moveEdit? hmoved]
    exact List.mem_map_of_mem hr
  · cases h

theorem mem_of_mem_moveItems {items : List CompletionItem} {ranges : List (Option Range)}
    {i : CompletionItem} (hi : i ∈ moveItems items ranges) {edit : ItemEdit}
    (he : i.textEdit = some edit) {r : Range} (hr : r ∈ edit.ranges) : some r ∈ ranges := by
  induction items generalizing ranges with
  | nil => cases hi
  | cons item rest ih =>
    unfold moveItems at hi
    split at hi
    · next hnone =>
      rcases List.mem_cons.1 hi with rfl | hi
      · rw [hnone] at he
        cases he
      · exact ih hi
    · next own _ =>
      rcases List.mem_cons.1 hi with rfl | hi
      · exact List.mem_of_mem_take (mem_of_mem_moveItem he hr)
      · exact List.mem_of_mem_drop (ih hi)

/-- The items' own edits come back under the expected version. -/
theorem wp_remapPrimary (hI : Free I) (language : Language) (host : Url) (expected : Int)
    (items : List CompletionItem) :
    (remapPrimary language host expected items).wp c I (fun moved calls' _ => ∀ i ∈ moved,
      ∀ edit, i.textEdit = some edit → ∀ r ∈ edit.ranges,
        ∃ k ∈ calls', r ∈ k.rangesAt host expected) calls m := by
  unfold remapPrimary
  dsimp only
  split
  · next hnone =>
    simp only [Action.wp_pure]
    intro i hi edit he r hr
    have hmem : r ∈ editRanges items := List.mem_flatMap.2 ⟨i, hi, by simpa [he] using hr⟩
    rw [List.isEmpty_iff.1 hnone] at hmem
    cases hmem
  · simp only [Action.wp_bind, Action.wp_pure]
    refine Action.wp_mono (Mapping.wp_mapRanges hI ..) fun mapped calls' m' _ hfrom => ?_
    intro i hi edit he r hr
    have hmem := mem_of_mem_moveItems hi he hr
    rcases mapped with _ | found
    · cases hmem
    · obtain ⟨k, hk, -, hgiven⟩ := (hfrom found rfl).given
      exact ⟨k, hk, hgiven r hmem⟩

/-- An item's additional edits come back under the expected version, and its own stay as they are.
-/
theorem wp_remapItemAdditional (hI : Free I) (language : Language) (host : Url) (expected : Int)
    (item : CompletionItem) :
    (remapItemAdditional language host expected item).wp c I (fun i calls' _ =>
      i.textEdit = item.textEdit ∧ ∀ edits, i.additionalTextEdits = some edits → ∀ e ∈ edits,
        ∃ k ∈ calls', e.range ∈ k.rangesAt host expected) calls m := by
  unfold remapItemAdditional
  split
  · next hnone => simp [hnone]
  · simp only [remapAdditional, Action.wp_bind, Action.wp_pure]
    refine Action.wp_mono (Mapping.wp_remapEdits hI ..) fun edits calls' m' _ hedits => ?_
    refine ⟨trivial, fun edits' he => ?_⟩
    split at he
    · cases he
    · cases he
      exact hedits

theorem wp_remapItems (hI : Free I) (language : Language) (host : Url) (expected : Int)
    (items : List CompletionItem)
    (h : ∀ i ∈ items, ∀ edit, i.textEdit = some edit → ∀ r ∈ edit.ranges,
      ∃ k ∈ calls, r ∈ k.rangesAt host expected) :
    (items.mapM (remapItemAdditional language host expected)).wp c I (fun moved calls' _ =>
      ∀ i ∈ moved, ∀ r ∈ i.ranges, ∃ k ∈ calls', r ∈ k.rangesAt host expected) calls m := by
  refine Action.wp_mono (Action.wp_mapM (fun _ moved calls' _ => calls <+: calls' ∧ ∀ i ∈ moved,
    ∀ r ∈ i.ranges, ∃ k ∈ calls', r ∈ k.rangesAt host expected) items
    ⟨List.prefix_rfl, by simp⟩ ?_) fun _ _ _ _ hmoved => hmoved.2
  rintro done item rest moved calls₁ m₁ hitems ⟨hp₁, hdone⟩
  refine Action.wp_mono (wp_remapItemAdditional hI ..) ?_
  rintro i calls₂ m₂ hp₂ ⟨hown, hadditional⟩
  refine ⟨hp₁.trans hp₂, fun j hj => ?_⟩
  rcases List.mem_append.1 hj with hj | hj
  · intro r hr
    obtain ⟨k, hk, hrange⟩ := hdone j hj r hr
    exact ⟨k, hp₂.subset hk, hrange⟩
  · rw [List.mem_singleton.1 hj]
    refine CompletionItem.forall_mem_ranges.2 ⟨fun edit he r hr => ?_, hadditional⟩
    have hitem : item ∈ items := by simp [hitems]
    obtain ⟨k, hk, hrange⟩ := h item hitem edit (hown ▸ he) r hr
    exact ⟨k, (hp₁.trans hp₂).subset hk, hrange⟩

/-- The list of a server holds ranges of the host as it was at the start. -/
theorem wp_serverList {r r' : PositionRequest} (hI : Allows I r) {p : Projection} {v : VirtualUri}
    {a : Classification} (hp : Projected r.place p v a calls)
    (hm : r'.ask.method = r.ask.method) :
    (serverList p r').wp c I (fun list calls' _ => ∀ l, list = some l → ∀ i ∈ l.items,
      ∀ range ∈ i.ranges, AtStart calls' range) calls m := by
  simp only [serverList, Action.wp_bind]
  refine Projection.wp_forwarding hI hp hm .completionList fun found calls m hs => ?_
  rcases found with _ | answer
  · simp
  simp only [Action.wp_bind, Action.wp_pure]
  refine Action.wp_mono (wp_remapPrimary hI.free ..) fun moved calls₁ m₁ hp₁ hmoved => ?_
  refine Action.wp_mono (wp_remapItems hI.free _ _ _ _ hmoved) fun items calls₂ m₂ hp₂ hitems => ?_
  refine Action.wp_call (hI.free _ _ rfl rfl (List.forall_mem_nil _)) fun m₃ id _ => ?_
  rintro l hl i hi range hrange
  cases hl
  obtain ⟨j, hj, rfl⟩ := List.mem_map.1 hi
  obtain ⟨k, hk, hr⟩ := hitems j hj range hrange
  have hp₃ := (hp₁.trans hp₂).trans (List.prefix_append calls₂ [⟨_, m₂, m₃, id⟩])
  exact ⟨p.host, snapshot?_later hs hp₃, k, List.mem_append_left _ hk, hr⟩

/-- The names of tag helpers come without edits. -/
theorem wp_tagHelperItems (hI : Free I) (p : Projection) :
    (tagHelperItems p).wp c I (fun items _ _ => ∀ i ∈ items, i.ranges = []) calls m := by
  simp only [tagHelperItems, Action.wp_bind, Action.wp_ofExcept]
  refine Action.wp_call (hI _ _ rfl rfl (List.forall_mem_nil _)) fun m₁ answer _ => ?_
  rintro (_ | context) -
  · simp
  dsimp only
  split
  · simp
  split
  · simp
  · simp only [Action.wp_bind, Action.wp_pure]
    refine Action.wp_call (hI _ _ rfl rfl (List.forall_mem_nil _)) fun m₂ capabilities _ => ?_
    refine Action.wp_call (hI _ _ rfl rfl (List.forall_mem_nil _)) fun m₃ provider _ => ?_
    intro i hi
    obtain ⟨j, -, rfl⟩ := List.mem_map.1 hi
    rfl

theorem mem_extend {list : Option CompletionList} {items : List CompletionItem}
    {v : CompletionList} (h : extend list items = some v) {i : CompletionItem} (hi : i ∈ v.items) :
    (∃ l, list = some l ∧ i ∈ l.items) ∨ i ∈ items := by
  unfold extend at h
  split at h
  · exact .inl ⟨v, h, hi⟩
  · split at h
    · cases h
      exact .inr hi
    · next l =>
      cases h
      exact (List.mem_append.1 hi).imp_left fun hi => ⟨l, rfl, hi⟩

theorem method_invoked {r : PositionRequest} {trigger : Option CompletionTrigger}
    (hr : r.ask = .completion trigger) : (invoked r trigger).ask.method = r.ask.method := by
  unfold invoked
  split
  · rw [hr]
    rfl
  · rfl

theorem wp_completion {r : PositionRequest} (hI : Allows I r) {trigger : Option CompletionTrigger}
    (hr : r.ask = .completion trigger) :
    (completion r trigger).wp c I (fun reply calls _ => ∀ v, reply = some v → ∀ i ∈ v.items,
      ∀ range ∈ i.ranges, AtStart calls range) [] m := by
  refine Projection.wp_projecting hI (fun _ _ => nofun) fun p _ _ calls m hp => ?_
  split
  · simp
  simp only [Action.wp_bind]
  refine Action.wp_mono (wp_serverList hI hp (method_invoked hr)) fun list calls₁ m₁ hp₁ hlist => ?_
  split
  · simp only [Action.wp_bind, Action.wp_pure]
    refine Action.wp_mono (wp_tagHelperItems hI.free p) fun items calls₂ m₂ hp₂ hitems => ?_
    intro v hv i hi range hrange
    rcases mem_extend hv hi with ⟨l, hl, hi⟩ | hi
    · exact (hlist l hl i hi range hrange).later hp₂
    · rw [hitems i hi] at hrange
      cases hrange
  · simpa using hlist

end Handler

end PolyglotLsp
