import PolyglotLsp.Config.Layer
import PolyglotLsp.Lsp.Services
import PolyglotLsp.Proofs.Json.RoundTrip
import PolyglotLsp.Proofs.Url.Legible

/-!
# The wire types are read as they were written

What the router and the host language's services send each other, the layers of the configuration
and the failures that the editor sees each have one JSON form. A value within the limits of its
integers (`Bounded`) is read from that form as it was written, and no other value is ever read
(`Layer.roundTrip`, `Regeneration.roundTrip` and so on, from their members upwards). Two types ask
for more. The host of a regeneration has to be read back from its text, as every URL is that was
read from any text (`parse?_text_of_parse?`); and the data of a failure must not be a `null` of its
own, which reads as no data. `wire_roundTrip` puts the types together.
-/

namespace PolyglotLsp

open Json

/-! ## Places and edits -/

/-- Lines and columns are words of 32 bits. -/
structure Position.Bounded (p : Position) : Prop where
  line : p.line < 4294967296
  character : p.character < 4294967296

theorem Position.roundTrip : RoundTrip Position.toJson Position.ofJson? Position.Bounded := by
  constructor
  · intro p valid
    have line := RoundTrip.uint32.read_write valid.line
    have character := RoundTrip.uint32.read_write valid.character
    simp [Position.toJson, Position.ofJson?, req, line, character]
  · intro j p h
    obtain ⟨j, -, h⟩ := Option.bind_eq_some_iff.1 h
    obtain ⟨line, hl, h⟩ := Option.bind_eq_some_iff.1 h
    obtain ⟨character, hc, h⟩ := Option.bind_eq_some_iff.1 h
    cases h
    exact ⟨RoundTrip.uint32.valid_of_read hl, RoundTrip.uint32.valid_of_read hc⟩

structure Range.Bounded (r : Range) : Prop where
  start : r.start.Bounded
  stop : r.stop.Bounded

theorem Range.roundTrip : RoundTrip Range.toJson Range.ofJson? Range.Bounded := by
  constructor
  · intro r valid
    have start := Position.roundTrip.read_write valid.start
    have stop := Position.roundTrip.read_write valid.stop
    simp [Range.toJson, Range.ofJson?, req, start, stop]
  · intro j r h
    obtain ⟨j, -, h⟩ := Option.bind_eq_some_iff.1 h
    obtain ⟨start, hs, h⟩ := Option.bind_eq_some_iff.1 h
    obtain ⟨stop, he, h⟩ := Option.bind_eq_some_iff.1 h
    cases h
    exact ⟨Position.roundTrip.valid_of_read hs, Position.roundTrip.valid_of_read he⟩

theorem TextEdit.roundTrip :
    RoundTrip TextEdit.toJson TextEdit.ofJson? fun e => e.range.Bounded := by
  constructor
  · intro e valid
    have range := Range.roundTrip.read_write valid
    have newText := RoundTrip.string.read_write (a := e.newText) trivial
    simp [TextEdit.toJson, TextEdit.ofJson?, req, range, newText]
  · intro j e h
    obtain ⟨j, -, h⟩ := Option.bind_eq_some_iff.1 h
    obtain ⟨range, hr, h⟩ := Option.bind_eq_some_iff.1 h
    obtain ⟨newText, -, h⟩ := Option.bind_eq_some_iff.1 h
    cases h
    exact Range.roundTrip.valid_of_read hr

theorem Language.roundTrip : RoundTrip Language.toJson Language.ofJson? fun _ => True := by
  constructor
  · intro l _
    cases l <;> rfl
  · exact fun _ => trivial

theorem Url.roundTrip :
    RoundTrip Url.toJson Url.ofJson? fun u => Url.parse? u.text = some u := by
  constructor
  · intro u read
    simpa only [Url.ofJson?, Url.toJson, asString?, Option.bind_some] using read
  · intro j u h
    obtain ⟨s, -, read⟩ := Option.bind_eq_some_iff.1 h
    exact Url.parse?_text_of_parse? read

/-! ## What the services say -/

/-- Host versions are integers of 32 bits. -/
theorem roundTrip_hostVersion :
    RoundTrip (ofOption Json.int) (maybe asInt32?) fun o => ∀ v ∈ o, IsInt32 v :=
  RoundTrip.int32.option rfl

structure Classification.Bounded (c : Classification) : Prop where
  position : c.position.Bounded
  hostVersion : ∀ v ∈ c.hostVersion, IsInt32 v

theorem Classification.roundTrip :
    RoundTrip Classification.toJson Classification.ofJson? Classification.Bounded := by
  constructor
  · intro c valid
    have language := Language.roundTrip.read_write (a := c.language) trivial
    have position := Position.roundTrip.read_write valid.position
    have hostVersion := roundTrip_hostVersion.read_write valid.hostVersion
    simp [Classification.toJson, Classification.ofJson?, req, opt, language, position, hostVersion]
  · intro j c h
    obtain ⟨j, -, h⟩ := Option.bind_eq_some_iff.1 h
    obtain ⟨language, -, h⟩ := Option.bind_eq_some_iff.1 h
    obtain ⟨position, hp, h⟩ := Option.bind_eq_some_iff.1 h
    obtain ⟨hostVersion, hv, h⟩ := Option.bind_eq_some_iff.1 h
    cases h
    exact ⟨Position.roundTrip.valid_of_read hp, roundTrip_hostVersion.valid_of_read hv⟩

structure MappedRanges.Bounded (m : MappedRanges) : Prop where
  ranges : ∀ o ∈ m.ranges, ∀ r ∈ o, r.Bounded
  hostVersion : ∀ v ∈ m.hostVersion, IsInt32 v

theorem MappedRanges.roundTrip :
    RoundTrip MappedRanges.toJson MappedRanges.ofJson? MappedRanges.Bounded := by
  have places := (Range.roundTrip.option rfl).list
  constructor
  · intro m valid
    have ranges := places.read_write valid.ranges
    have hostVersion := roundTrip_hostVersion.read_write valid.hostVersion
    simp [MappedRanges.toJson, MappedRanges.ofJson?, req, opt, ranges, hostVersion]
  · intro j m h
    obtain ⟨j, -, h⟩ := Option.bind_eq_some_iff.1 h
    obtain ⟨ranges, hr, h⟩ := Option.bind_eq_some_iff.1 h
    obtain ⟨hostVersion, hv, h⟩ := Option.bind_eq_some_iff.1 h
    cases h
    exact ⟨places.valid_of_read hr, roundTrip_hostVersion.valid_of_read hv⟩

structure RemappedEdits.Bounded (r : RemappedEdits) : Prop where
  edits : ∀ e ∈ r.edits, e.range.Bounded
  hostVersion : ∀ v ∈ r.hostVersion, IsInt32 v

theorem RemappedEdits.roundTrip :
    RoundTrip RemappedEdits.toJson RemappedEdits.ofJson? RemappedEdits.Bounded := by
  constructor
  · intro r valid
    have edits := TextEdit.roundTrip.list.read_write valid.edits
    have hostVersion := roundTrip_hostVersion.read_write valid.hostVersion
    simp [RemappedEdits.toJson, RemappedEdits.ofJson?, req, opt, edits, hostVersion]
  · intro j r h
    obtain ⟨j, -, h⟩ := Option.bind_eq_some_iff.1 h
    obtain ⟨edits, he, h⟩ := Option.bind_eq_some_iff.1 h
    obtain ⟨hostVersion, hv, h⟩ := Option.bind_eq_some_iff.1 h
    cases h
    exact ⟨TextEdit.roundTrip.list.valid_of_read he, roundTrip_hostVersion.valid_of_read hv⟩

/-- Offsets are words of 64 bits. -/
structure TextChange.Bounded (c : TextChange) : Prop where
  start : c.start < 18446744073709551616
  length : c.length < 18446744073709551616

theorem TextChange.roundTrip :
    RoundTrip TextChange.toJson TextChange.ofJson? TextChange.Bounded := by
  constructor
  · intro c valid
    have start := RoundTrip.uint64.read_write valid.start
    have length := RoundTrip.uint64.read_write valid.length
    have newText := RoundTrip.string.read_write (a := c.newText) trivial
    simp [TextChange.toJson, TextChange.ofJson?, req, start, length, newText]
  · intro j c h
    obtain ⟨j, -, h⟩ := Option.bind_eq_some_iff.1 h
    obtain ⟨start, hs, h⟩ := Option.bind_eq_some_iff.1 h
    obtain ⟨length, hl, h⟩ := Option.bind_eq_some_iff.1 h
    obtain ⟨newText, -, h⟩ := Option.bind_eq_some_iff.1 h
    cases h
    exact ⟨RoundTrip.uint64.valid_of_read hs, RoundTrip.uint64.valid_of_read hl⟩

structure Regeneration.Bounded (r : Regeneration) : Prop where
  hostVersion : IsInt32 r.hostVersion
  changes : ∀ c ∈ r.changes, c.Bounded

theorem Regeneration.roundTrip :
    RoundTrip Regeneration.toJson Regeneration.ofJson? fun r =>
      r.Bounded ∧ Url.parse? r.host.text = some r.host := by
  constructor
  · intro r ⟨valid, read⟩
    have host := Url.roundTrip.read_write read
    have language := Language.roundTrip.read_write (a := r.language) trivial
    have hostVersion := RoundTrip.int32.read_write valid.hostVersion
    have changes := TextChange.roundTrip.list.read_write valid.changes
    simp [Regeneration.toJson, Regeneration.ofJson?, req, host, language, hostVersion, changes]
  · intro j r h
    obtain ⟨j, -, h⟩ := Option.bind_eq_some_iff.1 h
    obtain ⟨host, hh, h⟩ := Option.bind_eq_some_iff.1 h
    obtain ⟨language, -, h⟩ := Option.bind_eq_some_iff.1 h
    obtain ⟨hostVersion, hv, h⟩ := Option.bind_eq_some_iff.1 h
    have version := RoundTrip.int32.valid_of_read hv
    have read := Url.roundTrip.valid_of_read hh
    dsimp only at h
    split at h
    · obtain ⟨changes, hc, h⟩ := Option.bind_eq_some_iff.1 h
      cases h
      exact ⟨⟨version, TextChange.roundTrip.list.valid_of_read hc⟩, read⟩
    · cases h
      exact ⟨⟨version, nofun⟩, read⟩

/-! ## Failures -/

theorem ResponseError.roundTrip :
    RoundTrip ResponseError.toJson ResponseError.ofJson? fun e =>
      IsInt32 e.code ∧ e.data ≠ some .null := by
  constructor
  · intro e ⟨range, given⟩
    have code := RoundTrip.int32.read_write range
    have message := RoundTrip.string.read_write (a := e.message) trivial
    have data := RoundTrip.any.read_write given
    simp [ResponseError.toJson, ResponseError.ofJson?, req, opt, code, message, data]
  · intro j e h
    obtain ⟨j, -, h⟩ := Option.bind_eq_some_iff.1 h
    obtain ⟨code, hc, h⟩ := Option.bind_eq_some_iff.1 h
    obtain ⟨message, -, h⟩ := Option.bind_eq_some_iff.1 h
    obtain ⟨data, hd, h⟩ := Option.bind_eq_some_iff.1 h
    cases h
    exact ⟨RoundTrip.int32.valid_of_read hc, RoundTrip.any.valid_of_read hd⟩

/-! ## Layers of the configuration -/

namespace Config

theorem ContentTypes.roundTrip :
    RoundTrip ContentTypes.toJson ContentTypes.ofJson? fun _ => True := by
  constructor
  · intro c _
    have names := RoundTrip.string.list.option rfl
    have html := names.read_write (a := c.html) fun _ _ _ _ => trivial
    have csharp := names.read_write (a := c.csharp) fun _ _ _ _ => trivial
    simp [ContentTypes.toJson, ContentTypes.ofJson?, opt, html, csharp]
  · exact fun _ => trivial

/-- Times and capacities are words of 64 bits. -/
structure Layer.Bounded (l : Layer) : Prop where
  synchronizationTimeout : ∀ n ∈ l.synchronizationTimeout, n < 18446744073709551616
  requestTimeout : ∀ n ∈ l.requestTimeout, n < 18446744073709551616
  progressTimeout : ∀ n ∈ l.progressTimeout, n < 18446744073709551616
  completionCacheCapacity : ∀ n ∈ l.completionCacheCapacity, n < 18446744073709551616

theorem Layer.roundTrip : RoundTrip Layer.toJson Layer.ofJson? Layer.Bounded := by
  have numbers := RoundTrip.uint64.option rfl
  constructor
  · intro l valid
    have synchronization := numbers.read_write valid.synchronizationTimeout
    have request := numbers.read_write valid.requestTimeout
    have progress := numbers.read_write valid.progressTimeout
    have capacity := numbers.read_write valid.completionCacheCapacity
    have level := (RoundTrip.string.option rfl).read_write (a := l.logLevel) fun _ _ => trivial
    have types := (ContentTypes.roundTrip.option rfl).read_write (a := l.contentTypes)
      fun _ _ => trivial
    simp [Layer.toJson, Layer.ofJson?, opt, synchronization, request, progress, capacity, level,
      types]
  · intro j l h
    obtain ⟨j, -, h⟩ := Option.bind_eq_some_iff.1 h
    obtain ⟨synchronization, hs, h⟩ := Option.bind_eq_some_iff.1 h
    obtain ⟨request, hr, h⟩ := Option.bind_eq_some_iff.1 h
    obtain ⟨progress, hp, h⟩ := Option.bind_eq_some_iff.1 h
    obtain ⟨capacity, hc, h⟩ := Option.bind_eq_some_iff.1 h
    obtain ⟨level, -, h⟩ := Option.bind_eq_some_iff.1 h
    obtain ⟨types, -, h⟩ := Option.bind_eq_some_iff.1 h
    cases h
    exact ⟨numbers.valid_of_read hs, numbers.valid_of_read hr, numbers.valid_of_read hp,
      numbers.valid_of_read hc⟩

end Config

/-! ## All of them -/

/-- A value of a wire type is read from its JSON form as it was written exactly if its integers are
within their limits, the host of a regeneration is the URL that its text names, and the data of a
failure is not `null`. -/
theorem wire_roundTrip :
    (∀ l : Config.Layer, Config.Layer.ofJson? l.toJson = some l ↔ l.Bounded) ∧
      (∀ c : Config.ContentTypes, Config.ContentTypes.ofJson? c.toJson = some c) ∧
      (∀ l : Language, Language.ofJson? l.toJson = some l) ∧
      (∀ c : TextChange, TextChange.ofJson? c.toJson = some c ↔ c.Bounded) ∧
      (∀ r : Regeneration, Regeneration.ofJson? r.toJson = some r ↔
        r.Bounded ∧ Url.parse? r.host.text = some r.host) ∧
      (∀ c : Classification, Classification.ofJson? c.toJson = some c ↔ c.Bounded) ∧
      (∀ m : MappedRanges, MappedRanges.ofJson? m.toJson = some m ↔ m.Bounded) ∧
      (∀ r : RemappedEdits, RemappedEdits.ofJson? r.toJson = some r ↔ r.Bounded) ∧
      ∀ e : ResponseError, ResponseError.ofJson? e.toJson = some e ↔
        IsInt32 e.code ∧ e.data ≠ some .null :=
  ⟨fun _ => Config.Layer.roundTrip.read_write_iff,
    fun _ => Config.ContentTypes.roundTrip.read_write trivial,
    fun _ => Language.roundTrip.read_write trivial,
    fun _ => TextChange.roundTrip.read_write_iff,
    fun _ => Regeneration.roundTrip.read_write_iff,
    fun _ => Classification.roundTrip.read_write_iff,
    fun _ => MappedRanges.roundTrip.read_write_iff,
    fun _ => RemappedEdits.roundTrip.read_write_iff,
    fun _ => ResponseError.roundTrip.read_write_iff⟩

/-- A range without a place in the host, and one at the limits. -/
example :
    let mapped : MappedRanges :=
      ⟨[none, some ⟨⟨0, 4294967295⟩, ⟨4294967295, 0⟩⟩], some (-2147483648)⟩
    MappedRanges.ofJson? mapped.toJson = some mapped := rfl

/-- Data that is `null` is lost. -/
example : ResponseError.ofJson? (ResponseError.toJson ⟨-32802, "late", some .null⟩) =
    some ⟨-32802, "late", none⟩ := rfl

end PolyglotLsp
