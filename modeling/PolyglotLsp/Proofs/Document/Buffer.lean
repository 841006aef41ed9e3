import PolyglotLsp.Proofs.Document.Locality
import PolyglotLsp.Proofs.Document.Publication
import PolyglotLsp.Proofs.Text.Position
import PolyglotLsp.Scenario.Sample

/-!
# The editor's buffer

An editor keeps the text of a document in a buffer of its own and only ever tells what it does to
it: it replaces all of the text, or what lies between two places, which it names by their positions
in the buffer as it is at that moment (`BufferEdit`). Several such edits make a batch with a version
(`BufferEdits`), and batches follow each other while the store hears of other things as well
(`Buffered`). The positions of places lead back to the places, so that the store does to its text
what the editor did to the buffer (`applyChange_of_edit`). It never has a reason to refuse, and the
two texts are the same after every batch.
-/

namespace PolyglotLsp.Store

/-- One edit of a buffer, the change that tells of it, and the buffer after it. A range may name the
two places in either order. -/
inductive BufferEdit : List Char → ContentChange → List Char → Prop
  | all (buffer : List Char) (rangeLength : Option Nat) (text : String) :
      BufferEdit buffer ⟨none, rangeLength, text⟩ text.toList
  | between (before removed rest : List Char) {start stop : Position} {r : Range}
      (hstart : Text.positionOf (before ++ removed ++ rest) (Text.byteLength before) = some start)
      (hstop : Text.positionOf (before ++ removed ++ rest) (Text.byteLength (before ++ removed)) =
        some stop)
      (hr : r = ⟨start, stop⟩ ∨ r = ⟨stop, start⟩) (rangeLength : Option Nat) (text : String) :
      BufferEdit (before ++ removed ++ rest) ⟨some r, rangeLength, text⟩
        (before ++ text.toList ++ rest)

/-- Edits one after the other, each of the buffer that the one before left. -/
inductive BufferEdits : List Char → List ContentChange → List Char → Prop
  | none (buffer : List Char) : BufferEdits buffer [] buffer
  | more {buffer buffer' buffer'' : List Char} {change : ContentChange}
      {changes : List ContentChange} (first : BufferEdit buffer change buffer')
      (later : BufferEdits buffer' changes buffer'') :
      BufferEdits buffer (change :: changes) buffer''

/-- The version and the buffer of a host in its editor. Since the host was opened, every batch of
edits had a newer version than the one before; anything else may have happened in between that
neither edits the host nor closes or opens it. -/
inductive Buffered (host : Url) : List Event → Int → List Char → Prop
  | opened (past : List Event) (version : Int) (text : String) :
      Buffered host (.opened host version text :: past) version text.toList
  | typed {past : List Event} {version version' : Int} {buffer buffer' : List Char}
      {changes : List ContentChange} (h : Buffered host past version buffer)
      (newer : version < version') (edits : BufferEdits buffer changes buffer') :
      Buffered host (.edited host version' changes :: past) version' buffer'
  | meanwhile {past : List Event} {version : Int} {buffer : List Char} {e : Event}
      (h : Buffered host past version buffer) (going : ¬ Interrupts host e)
      (elsewhere : ∀ version changes, e ≠ .edited host version changes) :
      Buffered host (e :: past) version buffer

/-! ## One batch -/

theorem offsetsOf_between (before removed rest : List Char) {start stop : Position} {r : Range}
    (hstart : Text.positionOf (before ++ removed ++ rest) (Text.byteLength before) = some start)
    (hstop : Text.positionOf (before ++ removed ++ rest) (Text.byteLength (before ++ removed)) =
      some stop)
    (hr : r = ⟨start, stop⟩ ∨ r = ⟨stop, start⟩) :
    Text.offsetsOf (before ++ removed ++ rest) r =
      some (Text.byteLength before, Text.byteLength (before ++ removed)) := by
  have back : Text.offsetOf (before ++ removed ++ rest) start = some (Text.byteLength before) := by
    rw [List.append_assoc] at hstart ⊢
    rw [Text.positionOf_append] at hstart
    cases hstart
    exact Text.offsetOf_endOf before (removed ++ rest)
  have back' : Text.offsetOf (before ++ removed ++ rest) stop =
      some (Text.byteLength (before ++ removed)) := by
    rw [Text.positionOf_append] at hstop
    cases hstop
    exact Text.offsetOf_endOf (before ++ removed) rest
  have ordered : Text.byteLength before ≤ Text.byteLength (before ++ removed) := by
    rw [Text.byteLength_append]
    omega
  rcases hr with rfl | rfl
  · simp only [Text.offsetsOf, back, back', Option.bind_eq_bind, Option.bind_some,
      Nat.min_eq_left ordered, Nat.max_eq_right ordered]
  · simp only [Text.offsetsOf, back, back', Option.bind_eq_bind, Option.bind_some,
      Nat.min_eq_right ordered, Nat.max_eq_left ordered]

/-- The store follows one edit. -/
theorem applyChange_of_edit (url : Url) {buffer buffer' : List Char} {change : ContentChange}
    (h : BufferEdit buffer change buffer') :
    applyChange url (String.ofList buffer) change = .ok (String.ofList buffer') := by
  cases h with
  | all buffer rangeLength text => simp [applyChange]
  | between before removed rest hstart hstop hr rangeLength text =>
    have offsets := offsetsOf_between before removed rest hstart hstop hr
    have edited := Text.replace?_append before removed rest text.toList
    simp only [applyChange, String.toList_ofList, offsets, Option.bind_eq_bind, Option.bind_some,
      edited]

theorem foldlM_applyChange_of_edits (url : Url) {buffer buffer' : List Char}
    {changes : List ContentChange} (h : BufferEdits buffer changes buffer') :
    changes.foldlM (applyChange url) (String.ofList buffer) = .ok (String.ofList buffer') := by
  induction h with
  | none buffer => rfl
  | more first later ih =>
    rw [List.foldlM_cons, applyChange_of_edit url first]
    exact ih

/-- The store follows a batch, which it accepts if the version is newer. -/
theorem applyChanges_of_edits {s : Store} {url : Url} {o o' : Opening} {version : Int}
    {buffer buffer' : List Char} {changes : List ContentChange}
    (ho : s.documents.get? url = some o) (text : o.text = String.ofList buffer)
    (newer : o.version < version) (edits : BufferEdits buffer changes buffer')
    (ho' : o' = { o with version, text := String.ofList buffer' }) :
    s.applyChanges url version changes =
      .ok ({ s with documents := s.documents.set url o' }, o'.snapshot url) := by
  have accepted : ¬ version ≤ o.version := by omega
  simp only [applyChanges, ho, if_neg accepted, text, foldlM_applyChange_of_edits url edits, ho']
  rfl

/-! ## All batches -/

theorem opening_of_buffered {host : Url} {past : List Event} {version : Int} {buffer : List Char}
    (h : Buffered host past version buffer) :
    ∃ o, (after past).documents.get? host = some o ∧ o.version = version ∧
      o.text = String.ofList buffer := by
  induction h with
  | opened past version text =>
    have found : (after (.opened host version text :: past)).documents.get? host =
        some ⟨((after past).close host).nextNumber, version, text,
          (virtualUris host).map .empty⟩ := by
      rw [after, step, openDocument, Table.get?_set, if_pos rfl]
    exact ⟨_, found, rfl, String.ofList_toList.symm⟩
  | @typed _ _ version' _ buffer' _ _ newer edits ih =>
    obtain ⟨o, ho, rfl, text⟩ := ih
    refine ⟨{ o with version := version', text := String.ofList buffer' }, ?_, rfl, rfl⟩
    rw [after, step, applyChanges_of_edits ho text newer edits rfl]
    simp only [Table.get?_set, ↓reduceIte]
  | @meanwhile past version buffer e _ going elsewhere ih =>
    obtain ⟨o, ho, hv, text⟩ := ih
    by_cases about : e.host = host
    · cases e with
      | opened url | closed url => exact absurd about going
      | edited url version changes =>
        obtain rfl : url = host := about
        exact absurd rfl (elsewhere version changes)
      | regenerated r =>
        -- regenerations replace virtual documents only
        obtain rfl : r.host = host := about
        rw [after]
        rcases step_regenerated (after past) r with ⟨hs, -⟩ | ⟨o', d₀, d, ho', -, -, -, -, hs⟩
        · rw [hs]
          exact ⟨o, ho, hv, text⟩
        · rw [ho] at ho'
          cases ho'
          refine ⟨o.setVirtual d, ?_, hv, text⟩
          rw [hs, Table.get?_set, if_pos rfl]
    · refine ⟨o, ?_, hv, text⟩
      rw [after, documents_get?_step_of_ne _ about, ho]

/-- Whatever an editor has done to a buffer since it opened the host, the store has the version and
the text of the buffer, accepts any batch of edits with a newer version, and has the buffer's text
again after it. -/
theorem text_mirrors_buffer {host : Url} {past : List Event} {version : Int} {buffer : List Char}
    (h : Buffered host past version buffer) :
    (∃ d, (after past).get? host = some d ∧ d.version = version ∧ d.text.toList = buffer) ∧
      ∀ version' changes buffer', version < version' → BufferEdits buffer changes buffer' →
        ∃ s d, (after past).applyChanges host version' changes = .ok (s, d) ∧
          s.get? host = some d ∧ d.version = version' ∧ d.text.toList = buffer' := by
  obtain ⟨o, ho, rfl, text⟩ := opening_of_buffered h
  constructor
  · refine ⟨o.snapshot host, ?_, rfl, ?_⟩
    · rw [get?, ho, Option.map_some]
    · rw [Opening.snapshot, text, String.toList_ofList]
  · intro version' changes buffer' newer edits
    refine ⟨_, _, applyChanges_of_edits ho text newer edits rfl, ?_, rfl, String.toList_ofList⟩
    simp only [get?, Table.get?_set, ↓reduceIte, Option.map_some]

open Scenario.Sample

/-- A wide character and the end of its line give way to a letter and two line ends, named from the
back to the front. -/
theorem bufferEdit_wide :
    BufferEdit "a😀\nb".toList ⟨some ⟨⟨1, 0⟩, ⟨0, 1⟩⟩, none, "é\n\n"⟩ "aé\n\nb".toList :=
  .between ['a'] ['😀', '\n'] ['b'] (by decide) (by decide) (.inr rfl) none "é\n\n"

/-- The letter after these line ends goes, and another one comes before the first. -/
theorem bufferEdits_narrow :
    BufferEdits "aé\n\nb".toList
      [⟨some ⟨⟨2, 0⟩, ⟨2, 1⟩⟩, some 1, ""⟩, ⟨some ⟨⟨0, 2⟩, ⟨0, 2⟩⟩, none, "c"⟩]
      "aéc\n\n".toList :=
  .more (.between ['a', 'é', '\n', '\n'] ['b'] [] (by decide) (by decide) (.inl rfl) (some 1) "")
    (.more (.between ['a', 'é'] [] ['\n', '\n'] (by decide) (by decide) (.inl rfl) none "c")
      (.none _))

/-- The sample's code is regenerated between the two batches. -/
theorem text_mirrors_buffer_wide :
    ∃ past, Buffered hostUrl past 2 "aé\n\nb".toList ∧
      (∃ d, (after past).get? hostUrl = some d ∧ d.text.toList = "aé\n\nb".toList) ∧
      ∃ s d, (after past).applyChanges hostUrl 5
          [⟨some ⟨⟨2, 0⟩, ⟨2, 1⟩⟩, some 1, ""⟩, ⟨some ⟨⟨0, 2⟩, ⟨0, 2⟩⟩, none, "c"⟩] = .ok (s, d) ∧
        s.get? hostUrl = some d ∧ d.version = 5 ∧ d.text.toList = "aéc\n\n".toList := by
  have opened : Buffered hostUrl _ 1 "a😀\nb".toList := .opened [] 1 "a😀\nb"
  have typed : Buffered hostUrl _ 2 "aé\n\nb".toList :=
    opened.typed (by decide) (.more bufferEdit_wide (.none _))
  have regenerated : Buffered hostUrl (.regenerated (regeneration 1) :: _) _ _ :=
    typed.meanwhile (by simp [Interrupts]) (by simp)
  obtain ⟨⟨d, hd, -, text⟩, follows⟩ := text_mirrors_buffer regenerated
  exact ⟨_, regenerated, ⟨d, hd, text⟩, follows 5 _ _ (by decide) bufferEdits_narrow⟩

end PolyglotLsp.Store
