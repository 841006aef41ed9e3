import PolyglotLsp.Proofs.Document.ReverseIndex
import PolyglotLsp.Proofs.Document.WaitingRoom
import PolyglotLsp.Proofs.Text.Order

/-!
# What the store refuses

The store declines an edit or a regeneration if its document is not open, its version is too old, or
some change of it does not fit (`declines_iff`). In a batch of edits the one at fault may be
anywhere: it is judged by the text that those before it have left (`foldlM_applyChange_error_iff`),
and it is at fault if its range names a line that this text does not have (`applyChange_error_iff`).
What the store declines leaves it as it is (`Declines.step`), so that calls that wait go on as if
nothing had happened (`WaitingRoom.after_append_of_declines`).
-/

namespace PolyglotLsp

/-! ## Lines -/

namespace Text

variable {cs : List Char}

theorem dropLines_eq_none_iff (cs : List Char) (n offset : Nat) :
    dropLines cs n offset = none ↔ cs.count '\n' < n := by
  fun_induction dropLines cs n offset with
  | case1 => simp
  | case2 => simp
  | case3 offset n rest ih => simp [ih]
  | case4 offset n c rest newline ih => simp [ih, newline]

/-- A position has no offset if there is no such line. -/
theorem offsetOf_eq_none_iff (cs : List Char) (p : Position) :
    offsetOf cs p = none ↔ cs.count '\n' < p.line := by
  rw [offsetOf, Option.map_eq_none_iff, dropLines_eq_none_iff]

theorem exists_append_of_dropLines {n offset start : Nat} {rest : List Char}
    (h : dropLines cs n offset = some (start, rest)) :
    ∃ before, cs = before ++ rest ∧ start = offset + byteLength before := by
  fun_induction dropLines cs n offset with
  | case1 =>
    cases h
    exact ⟨[], rfl, rfl⟩
  | case2 => cases h
  | case3 offset n rest' ih =>
    obtain ⟨before, rfl, rfl⟩ := ih h
    exact ⟨_ :: before, rfl, by rw [byteLength_cons, Nat.add_assoc]⟩
  | case4 offset n c rest' _ ih =>
    obtain ⟨before, rfl, rfl⟩ := ih h
    exact ⟨c :: before, rfl, by rw [byteLength_cons, Nat.add_assoc]⟩

theorem boundary_columnBytes (cs : List Char) (column : Nat) :
    Boundary cs (columnBytes cs column) := by
  induction cs generalizing column with
  | nil => exact ⟨[], List.prefix_rfl, rfl⟩
  | cons c cs ih =>
    rw [columnBytes]
    split
    · exact ⟨[], List.nil_prefix, rfl⟩
    · obtain ⟨before, leads, size⟩ := ih (column - units c)
      exact ⟨c :: before, List.cons_prefix_cons.2 ⟨rfl, leads⟩, by rw [byteLength_cons, size]⟩

/-- The offset of a position lies between two characters. -/
theorem boundary_of_offsetOf {p : Position} {offset : Nat} (h : offsetOf cs p = some offset) :
    Boundary cs offset := by
  obtain ⟨⟨start, rest⟩, found, rfl⟩ := Option.map_eq_some_iff.1 h
  obtain ⟨before, rfl, rfl⟩ := exists_append_of_dropLines found
  obtain ⟨more, leads, size⟩ := boundary_columnBytes rest p.character
  refine ⟨before ++ more, (List.prefix_append_right_inj before).2 leads, ?_⟩
  rw [byteLength_append, size, Nat.zero_add]

theorem isSome_replace? {start stop : Nat} (hstart : Boundary cs start) (hstop : Boundary cs stop)
    (h : start ≤ stop) (new : List Char) : (replace? cs start stop new).isSome := by
  obtain ⟨before, leads, rfl⟩ := hstart
  obtain ⟨upTo, ⟨rest, rfl⟩, rfl⟩ := hstop
  obtain ⟨removed, rfl⟩ := prefix_of_byteLength_le leads (List.prefix_append ..) h
  rw [replace?_append]
  rfl

end Text

namespace Store

/-! ## Edits at fault -/

/-- The range of a change names a line that the text does not have. -/
def OutOfRange (text : String) (change : ContentChange) : Prop :=
  ∃ r, change.range = some r ∧
    (text.toList.count '\n' < r.start.line ∨ text.toList.count '\n' < r.stop.line)

theorem applyChange_error_iff (url : Url) (text : String) (change : ContentChange) :
    (∃ e, applyChange url text change = .error e) ↔ OutOfRange text change := by
  unfold applyChange OutOfRange
  cases change.range with
  | none => simp
  | some r =>
    simp only [Option.some.injEq, exists_eq_left', ← Text.offsetOf_eq_none_iff]
    cases hstart : Text.offsetOf text.toList r.start with
    | none => simp [Text.offsetsOf, hstart]
    | some a =>
      cases hstop : Text.offsetOf text.toList r.stop with
      | none => simp [Text.offsetsOf, hstart, hstop]
      | some b =>
        -- both ends are places of the text, so that the range can be replaced
        have ha := Text.boundary_of_offsetOf hstart
        have hb := Text.boundary_of_offsetOf hstop
        have first : Text.Boundary text.toList (min a b) := by
          rcases Nat.le_total a b with h | h
          · rwa [Nat.min_eq_left h]
          · rwa [Nat.min_eq_right h]
        have last : Text.Boundary text.toList (max a b) := by
          rcases Nat.le_total a b with h | h
          · rwa [Nat.max_eq_right h]
          · rwa [Nat.max_eq_left h]
        obtain ⟨next, replaced⟩ := Option.isSome_iff_exists.1
          (Text.isSome_replace? first last (Nat.le_trans (Nat.min_le_left ..) (Nat.le_max_left ..))
            change.text.toList)
        simp [Text.offsetsOf, hstart, hstop, replaced]

/-- A batch fails at the first change that the text before it does not admit. -/
theorem foldlM_applyChange_error_iff (url : Url) (text : String) (changes : List ContentChange) :
    (∃ e, changes.foldlM (applyChange url) text = .error e) ↔
      ∃ applied change rest before, changes = applied ++ change :: rest ∧
        applied.foldlM (applyChange url) text = .ok before ∧ OutOfRange before change := by
  induction changes generalizing text with
  | nil => simp [pure, Except.pure]
  | cons first changes ih =>
    rw [List.foldlM_cons]
    cases applies : applyChange url text first with
    | error e =>
      refine iff_of_true ⟨e, rfl⟩ ⟨[], first, changes, text, rfl, rfl, ?_⟩
      exact (applyChange_error_iff url text first).1 ⟨e, applies⟩
    | ok next =>
      refine (ih next).trans ?_
      constructor
      · rintro ⟨applied, change, rest, before, rfl, reached, fault⟩
        refine ⟨first :: applied, change, rest, before, rfl, ?_, fault⟩
        rw [List.foldlM_cons, applies]
        exact reached
      · rintro ⟨applied, change, rest, before, split, reached, fault⟩
        cases applied with
        | nil =>
          cases split
          cases reached
          obtain ⟨e, he⟩ := (applyChange_error_iff url text first).2 fault
          rw [applies] at he
          cases he
        | cons _ applied =>
          cases split
          rw [List.foldlM_cons, applies] at reached
          exact ⟨applied, change, rest, before, rfl, reached, fault⟩

/-! ## Reasons -/

/-- The reasons against an edit or a regeneration. -/
inductive Refused (s : Store) : Event → Prop
  /-- The host is not open. -/
  | editedUnknown {url : Url} (version : Int) (changes : List ContentChange)
      (unknown : s.get? url = none) : Refused s (.edited url version changes)
  | regeneratedUnknown {r : Regeneration} (unknown : s.get? r.host = none) :
      Refused s (.regenerated r)
  /-- The language has no virtual documents. -/
  | regeneratedHost {r : Regeneration} (host : r.language ∉ Language.embedded) :
      Refused s (.regenerated r)
  /-- The host has this version or a newer one, or the document reflects a newer one. -/
  | editedOld {url : Url} {version : Int} (changes : List ContentChange) {d : HostSnapshot}
      (found : s.get? url = some d) (old : version ≤ d.version) :
      Refused s (.edited url version changes)
  | regeneratedOld {r : Regeneration} {d : VirtualSnapshot} {v : Int}
      (found : s.virtual? r.host r.language = some d) (reflects : d.hostVersion = some v)
      (old : r.hostVersion < v) : Refused s (.regenerated r)
  /-- A change is out of range after those before it have been applied. -/
  | editedBeyond {url : Url} (version : Int) {applied : List ContentChange}
      {change : ContentChange} (rest : List ContentChange) {before : String} {d : HostSnapshot}
      (found : s.get? url = some d)
      (reached : applied.foldlM (applyChange url) d.text = .ok before)
      (fault : OutOfRange before change) :
      Refused s (.edited url version (applied ++ change :: rest))
  /-- The changes cannot be applied to the text side by side. -/
  | regeneratedMisfit {r : Regeneration} {d : VirtualSnapshot}
      (found : s.virtual? r.host r.language = some d)
      (fault : ¬ TextChange.Fits d.text.toList (Text.byteLength d.text.toList)
        (TextChange.descending r.changes)) : Refused s (.regenerated r)

theorem applyChanges_error_iff (s : Store) (url : Url) (version : Int)
    (changes : List ContentChange) :
    (∃ e, s.applyChanges url version changes = .error e) ↔
      Refused s (.edited url version changes) := by
  unfold applyChanges
  cases ho : s.documents.get? url with
  | none =>
    have unknown : s.get? url = none := by rw [get?, ho, Option.map_none]
    exact iff_of_true ⟨_, rfl⟩ (.editedUnknown version changes unknown)
  | some o =>
    have found : s.get? url = some (o.snapshot url) := by rw [get?, ho, Option.map_some]
    by_cases old : version ≤ o.version
    · simp only [if_pos old]
      exact iff_of_true ⟨_, rfl⟩ (.editedOld changes found old)
    · have batch := foldlM_applyChange_error_iff url o.text changes
      simp only [if_neg old]
      constructor
      · rintro ⟨e, he⟩
        have fails : ∃ e, changes.foldlM (applyChange url) o.text = .error e := by
          cases ht : changes.foldlM (applyChange url) o.text with
          | error e => exact ⟨e, rfl⟩
          | ok text =>
            rw [ht] at he
            cases he
        obtain ⟨applied, change, rest, before, rfl, reached, fault⟩ := batch.1 fails
        exact .editedBeyond version rest found reached fault
      · intro refused
        cases refused with
        | editedUnknown _ _ unknown =>
          rw [found] at unknown
          cases unknown
        | editedOld _ found' old' =>
          rw [found] at found'
          cases found'
          exact absurd old' old
        | editedBeyond _ rest found' reached fault =>
          rw [found] at found'
          cases found'
          obtain ⟨e, he⟩ := batch.2 ⟨_, _, rest, _, rfl, reached, fault⟩
          exact ⟨e, by rw [he]; rfl⟩

theorem regenerate_of_missing {s : Store} {r : Regeneration}
    (missing : s.virtual? r.host r.language = none) : ∃ e, s.regenerate r = .error e := by
  unfold regenerate
  cases ho : s.documents.get? r.host with
  | none => exact ⟨_, rfl⟩
  | some o =>
    have hd : o.virtual? r.language = none := by simpa [virtual?, ho] using missing
    simp only [hd]
    exact ⟨_, rfl⟩

theorem refused_of_missing {past : List Event} {r : Regeneration}
    (missing : (after past).virtual? r.host r.language = none) :
    Refused (after past) (.regenerated r) := by
  by_cases embedded : r.language ∈ Language.embedded
  · refine .regeneratedUnknown (Option.not_isSome_iff_eq_none.1 fun known => ?_)
    obtain ⟨d, hd, -⟩ := exists_virtual? known embedded
    rw [missing] at hd
    cases hd
  · exact .regeneratedHost embedded

/-- Why a regeneration of a document that is there does not change it. -/
def FailsOn (r : Regeneration) (d : VirtualSnapshot) : Prop :=
  (∃ v, d.hostVersion = some v ∧ r.hostVersion < v) ∨
    ¬ TextChange.Fits d.text.toList (Text.byteLength d.text.toList) (TextChange.descending r.changes)

theorem regenerate_declined_iff {s : Store} {r : Regeneration} {d : VirtualSnapshot}
    (found : s.virtual? r.host r.language = some d) :
    ((∃ e, s.regenerate r = .error e) ∨ ∃ s', s.regenerate r = .ok (s', none)) ↔
      FailsOn r d := by
  obtain ⟨o, ho, hd⟩ := Option.bind_eq_some_iff.1 found
  simp only [regenerate, ho, hd]
  by_cases old : ∃ v, d.hostVersion = some v ∧ r.hostVersion < v
  · obtain ⟨v, reflects, older⟩ := old
    simp only [reflects, Option.any_some, decide_eq_true older, if_true]
    exact iff_of_true (.inr ⟨_, rfl⟩) (.inl ⟨v, reflects, older⟩)
  · have current : ¬ d.hostVersion.any (r.hostVersion < ·) = true := by
      cases hv : d.hostVersion with
      | none => simp
      | some v => simpa [hv] using old
    simp only [if_neg current]
    by_cases fits : TextChange.Fits d.text.toList (Text.byteLength d.text.toList)
        (TextChange.descending r.changes)
    · obtain ⟨text, spliced, -⟩ := TextChange.splice_of_fits fits
      rw [spliced]
      refine iff_of_false ?_ (not_or.2 ⟨old, not_not.2 fits⟩)
      rintro (⟨e, he⟩ | ⟨s', hs'⟩)
      · cases he
      · cases hs'
    · obtain ⟨message, fails⟩ := TextChange.splice_of_not_fits fits
      rw [fails]
      exact iff_of_true (.inl ⟨_, rfl⟩) (.inr fits)

theorem refused_iff_failsOn {past : List Event} {r : Regeneration} {d : VirtualSnapshot}
    (found : (after past).virtual? r.host r.language = some d) :
    Refused (after past) (.regenerated r) ↔ FailsOn r d := by
  obtain ⟨o, ho, hd⟩ := Option.bind_eq_some_iff.1 found
  constructor
  · intro refused
    cases refused with
    | regeneratedUnknown unknown =>
      rw [get?, ho] at unknown
      cases unknown
    | regeneratedHost host =>
      exact absurd ((Opening.mem_of_virtual? hd).2 ▸ language_mem_embedded d.uri) host
    | regeneratedOld found' reflects older =>
      rw [found] at found'
      cases found'
      exact .inl ⟨_, reflects, older⟩
    | regeneratedMisfit found' fault =>
      rw [found] at found'
      cases found'
      exact .inr fault
  · rintro (⟨v, reflects, older⟩ | fault)
    · exact .regeneratedOld found reflects older
    · exact .regeneratedMisfit found fault

theorem regenerate_refused_iff (past : List Event) (r : Regeneration) :
    ((∃ e, (after past).regenerate r = .error e) ∨
        ∃ s, (after past).regenerate r = .ok (s, none)) ↔
      Refused (after past) (.regenerated r) := by
  cases found : (after past).virtual? r.host r.language with
  | none => exact iff_of_true (.inl (regenerate_of_missing found)) (refused_of_missing found)
  | some d => exact (regenerate_declined_iff found).trans (refused_iff_failsOn found).symm

/-- The store answers an edit with an error, or a regeneration with an error or that it is
ignored. -/
def Declines (s : Store) : Event → Prop
  | .edited url version changes => ∃ e, s.applyChanges url version changes = .error e
  | .regenerated r =>
    (∃ e, s.regenerate r = .error e) ∨ ∃ s', s.regenerate r = .ok (s', none)
  | .opened .. | .closed _ => False

theorem declines_iff (past : List Event) (e : Event) :
    (after past).Declines e ↔ Refused (after past) e := by
  cases e with
  | edited url version changes => exact applyChanges_error_iff ..
  | regenerated r => exact regenerate_refused_iff past r
  | opened | closed => exact iff_of_false id nofun

theorem Declines.step {s : Store} {e : Event} (h : s.Declines e) : s.step e = s := by
  cases e with
  | opened | closed => exact h.elim
  | edited url version changes =>
    obtain ⟨e, he⟩ := h
    simp only [Store.step, he]
  | regenerated r =>
    rcases h with ⟨e, he⟩ | ⟨s', hs'⟩
    · simp only [Store.step, he]
    · simp only [Store.step, hs', regenerate_none hs']

end Store

/-! ## Calls that wait -/

namespace WaitingRoom

/-- A room in which something was declined is the one in which it never happened. -/
theorem after_append_of_declines {past : List Event} {e : Store.Event}
    (h : (after past).store.Declines e) (later : List Event) :
    after (later ++ .stored e :: past) = after (later ++ past) := by
  induction later with
  | nil => rw [List.nil_append, after, step, h.step, List.nil_append]
  | cons e' later ih => rw [List.cons_append, after, ih, List.cons_append, after]

end WaitingRoom

end PolyglotLsp
