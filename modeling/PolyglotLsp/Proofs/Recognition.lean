import PolyglotLsp.Proofs.Handler.Mapping
import PolyglotLsp.Proofs.Handler.WorkspaceEdit
import PolyglotLsp.Proofs.Url.Reading

/-!
# Names of virtual documents are told from others

A virtual document is named by its host's URL with another last segment. That is again a URL as it
is read (`Url.Normal.rename`), so that its text is read back to it, and the name is recognized if
something stands in front of the suffix (`VirtualUri.isVirtualUrl_iff`): unless the host's file name
is empty, or has nothing but tabs and line ends in it. What is recognized is never taken for an
ordinary document on the way back to the host.
-/

namespace PolyglotLsp

/-! ## Another last segment -/

namespace Url

theorem ne_nil_of_trimFront_cons {first : List Char} {more : List (List Char)}
    (h : trimFront (first :: more) = first :: more) (written : more ≠ []) : first ≠ [] := by
  rintro rfl
  have length := congrArg List.length h
  have dropped : ([] :: more).dropWhile List.isEmpty = more.dropWhile List.isEmpty := rfl
  unfold trimFront at length
  rw [dropped] at length
  split at length
  · have := List.length_pos_of_ne_nil written
    simp only [List.length_cons, List.length_nil] at length
    omega
  · have := (List.dropWhile_sublist List.isEmpty (l := more)).length_le
    simp only [List.length_cons] at length
    omega

variable {front items : List (List Char)} {last : List Char}

/-- A place stays one when its last segment is replaced, whether or not the segments in front of it
are kept. -/
theorem Located.rename {scheme : List Char} {authority : Option Authority}
    (h : Located scheme authority items) (place : front = [] ∨ ∃ old, items = front ++ [old])
    (segment : Segment (isSpecialScheme scheme) last) (written : last ≠ []) :
    Located scheme authority (front ++ [last]) := by
  have segments {special : Bool} (before : ∀ i ∈ items, Segment special i)
      (new : Segment special last) : ∀ i ∈ front ++ [last], Segment special i := by
    intro i hi
    rcases List.mem_append.1 hi with hi | hi
    · rcases place with rfl | ⟨old, rfl⟩
      · cases hi
      · exact before i (List.mem_append_left _ hi)
    · rw [List.mem_singleton.1 hi]
      exact new
  have nonempty : front ++ [last] ≠ [] := List.append_ne_nil_of_right_ne_nil _ (by simp)
  cases h with
  | file text reads before trimmed =>
    refine .file text reads (segments before segment) ?_
    cases front with
    | nil => exact trimFront_cons written []
    | cons first more =>
      obtain ⟨old, rfl⟩ := place.resolve_left (List.cons_ne_nil _ _)
      exact trimFront_cons (ne_nil_of_trimFront_cons trimmed (by simp)) _
  | special kind other authority before _ =>
    exact .special kind other authority (segments before (kind ▸ segment)) nonempty
  | placed kind authority before =>
    exact .placed kind authority (segments before (kind ▸ segment))
  | bare kind before _ => exact .bare kind (segments before (kind ▸ segment)) nonempty

theorem Normal.rename {u : Url} (h : u.Normal) (path : u.path = .segments items)
    (place : front = [] ∨ ∃ old, items = front ++ [old]) (segment : Segment u.isSpecial last)
    (written : last ≠ []) : Normal { u with path := .segments (front ++ [last]) } := by
  obtain ⟨items', path', located⟩ := h.located
  obtain rfl : items = items' := Path.segments.inj (path.symm.trans path')
  exact ⟨h.scheme, ⟨_, rfl, located.rename place segment written⟩, h.query, h.fragment⟩

end Url

namespace VirtualUri

open Url

variable {language : Language} {suffix : String}

/-! ## The last segment of a name -/

theorem stem_ne_nil_iff {special : Bool} {name : List Char} :
    stem special name ≠ [] ↔ ∃ c ∈ name, c ≠ '\t' ∧ c ≠ '\n' ∧ c ≠ '\r' := by
  simp [stem, encode_eq_nil_iff, List.filter_eq_nil_iff]

/-- Too long for a dot segment, the last segment of a name is one that is read. -/
theorem segment_stem (special : Bool) (name : List Char) (h : language.suffix? = some suffix) :
    Segment special (stem special name ++ suffix.toList) := by
  have long := suffix_length h
  refine ⟨fun c hc => ?_, Bool.eq_false_iff.2 fun dot => ?_, Bool.eq_false_iff.2 fun dots => ?_⟩
  · rcases List.mem_append.1 hc with hc | hc
    · rcases mem_encode hc with ⟨-, ascii, kept⟩ | plain
      · simp only [segmentSet, Bool.or_eq_false_iff] at kept
        exact ⟨ascii, kept.1.1.1, by simp [isSlash, kept.1.1.2, kept.2]⟩
      · exact segmentChar_of_isPlain special plain
    · exact segmentChar_of_isPlain special (suffix_kept h c hc).1
  · have := length_le_of_isDot dot
    rw [List.length_append] at this
    omega
  · have := length_le_of_isDotDot dots
    rw [List.length_append] at this
    omega

/-- The new segment comes after those in front of the old one, or stands alone. -/
theorem exists_front (special : Bool) {items : List (List Char)} {name : List Char}
    (h : items.getLast? = some name) (text : List Char) (hs : language.suffix? = some suffix) :
    ∃ front, pushSegment special (popSegment items) (text ++ suffix.toList) =
        front ++ [stem special text ++ suffix.toList] ∧
      (front = [] ∨ ∃ old, items = front ++ [old]) := by
  refine ⟨_, pushSegment_append special _ text hs, ?_⟩
  split
  · exact .inl rfl
  · next several =>
    unfold popSegment at several ⊢
    split
    · cases h
    · exact absurd rfl several
    · exact .inr ⟨name, (List.dropLast_append_getLast? name h).symm⟩

/-- A name is made in one of two ways. -/
theorem url_cases (v : VirtualUri) :
    ∃ suffix, v.language.suffix? = some suffix ∧
      ((v.host.lastSegment? = none ∧ fallback? v.host suffix.toList = some v.url) ∨
        ∃ items name, v.host.path = .segments items ∧ items.getLast? = some name ∧
          v.url = sibling v.host items name suffix.toList) := by
  have derived := v.derived
  simp only [urlOf?, Option.bind_eq_bind, Option.bind_eq_some_iff] at derived
  obtain ⟨suffix, hs, derived⟩ := derived
  refine ⟨suffix, hs, ?_⟩
  unfold derive? at derived
  split at derived
  · next path => exact .inl ⟨by simp [lastSegment?, path], derived⟩
  · next items path =>
    split at derived
    · next empty => exact .inl ⟨by simp [lastSegment?, path, empty], derived⟩
    · next name last => exact .inr ⟨items, name, path, last, (Option.some.inj derived).symm⟩

/-! ## Recognition -/

/-- The name of a virtual document is read back from its text. -/
theorem normal_url {s : String} {v : VirtualUri} (read : Url.parse? s = some v.host) :
    v.url.Normal := by
  obtain ⟨suffix, hs, ⟨-, derived⟩ | ⟨items, name, path, last, derived⟩⟩ := v.url_cases
  · have path : ∃ items, v.url.path = .segments items := by
      rw [fallback?_eq v.host hs] at derived
      rw [← Option.some.inj derived]
      exact ⟨_, rfl⟩
    obtain ⟨items, path⟩ := path
    refine normal_of_parse? (s := String.ofList (fallbackScheme.toList ++ ":///".toList ++
      encode nonAlphanumericSet v.host.chars ++ suffix.toList)) ?_ path
    rw [parse?, String.toList_ofList]
    exact derived
  · obtain ⟨front, pushed, place⟩ := exists_front v.host.isSpecial last (decode name) hs
    have written : stem v.host.isSpecial (decode name) ++ suffix.toList ≠ [] := by
      have := suffix_length hs
      intro none
      simp [(List.append_eq_nil_iff.1 none).2] at this
    rw [derived, sibling, pushed]
    exact (normal_of_parse? read path).rename path place (segment_stem _ _ hs) written

/-- A host whose virtual documents can be told by their names: it has the fallback scheme, or no
file name, or one with something in it besides tabs and line ends. -/
def Recognizable (host : Url) : Prop :=
  host.scheme = fallbackScheme.toList ∨
    ∀ name ∈ host.lastSegment?, ∃ c ∈ decode name, c ≠ '\t' ∧ c ≠ '\n' ∧ c ≠ '\r'

instance (host : Url) : Decidable (Recognizable host) :=
  -- character by character: there are too many characters to try
  letI (name : List Char) : Decidable (∃ c ∈ decode name, c ≠ '\t' ∧ c ≠ '\n' ∧ c ≠ '\r') :=
    List.decidableBEx ..
  inferInstanceAs (Decidable (_ ∨ _))

/-- Something has to stand in front of the suffix. -/
theorem any_suffix_iff {stem : List Char} (h : language.suffix? = some suffix) :
    ((Language.embedded.filterMap Language.suffix?).any fun s =>
      s.toList.isSuffixOf (stem ++ suffix.toList) &&
        decide (s.length < (stem ++ suffix.toList).length)) = true ↔ stem ≠ [] := by
  constructor
  · rintro found rfl
    revert found
    cases language with
    | razor => cases h
    | html | csharp =>
      cases h
      decide
  · intro written
    have listed : suffix ∈ Language.embedded.filterMap Language.suffix? := by
      refine List.mem_filterMap.2 ⟨language, ?_, h⟩
      cases language with
      | razor => cases h
      | html | csharp => decide
    refine List.any_eq_true.2 ⟨suffix, listed, ?_⟩
    have longer := List.length_pos_of_ne_nil written
    simp only [Bool.and_eq_true, List.isSuffixOf_iff_suffix, decide_eq_true_eq,
      List.length_append, String.length_toList]
    exact ⟨List.suffix_append .., by omega⟩

theorem isVirtualUrl_iff (v : VirtualUri) : isVirtualUrl v.url = true ↔ Recognizable v.host := by
  obtain ⟨suffix, hs, ⟨none, derived⟩ | ⟨items, name, path, last, derived⟩⟩ := v.url_cases
  · rw [fallback?_eq v.host hs] at derived
    rw [← Option.some.inj derived]
    simp [isVirtualUrl, Recognizable, none]
  · obtain ⟨front, pushed, -⟩ := exists_front v.host.isSpecial last (decode name) hs
    have named : v.host.lastSegment? = some name := by simp [lastSegment?, path, last]
    have segment : v.url.lastSegment? =
        some (stem v.host.isSpecial (decode name) ++ suffix.toList) := by
      rw [derived, sibling, pushed]
      exact List.getLast?_concat ..
    have scheme : v.url.scheme = v.host.scheme := by
      rw [derived]
      rfl
    rw [isVirtualUrl, segment, scheme, Bool.or_eq_true, any_suffix_iff hs, beq_iff_eq,
      stem_ne_nil_iff, Recognizable, named]
    simp

theorem isVirtual_text_iff {s : String} {v : VirtualUri} (read : Url.parse? s = some v.host) :
    isVirtual v.url.text = true ↔ Recognizable v.host := by
  rw [isVirtual, parse?_text (normal_url read)]
  exact v.isVirtualUrl_iff

end VirtualUri

/-! ## On the way back to the host -/

variable {σ α : Type} {c : Collaborators σ} {calls : List (Call σ)} {m : Moment σ}

/-- In every session, a condition holds of the reply to every request that runs this program and of
the calls that were made for it. -/
def Action.Ensures (c : Collaborators σ) (x : Action α) (Q : α → List (Call σ) → Prop) : Prop :=
  ∀ s : Session σ (Except RouterError α), s.Reachable c → ∀ t ∈ s.threads, t.program = x →
    ∀ a, t.reply? = some a → Q a t.calls

theorem Action.ensures_of_wp {x : Action α} {Q : α → List (Call σ) → Prop}
    (h : ∀ m, x.wp c (fun _ _ => True) (fun a calls _ => Q a calls) [] m) : x.Ensures c Q := by
  intro s reachable t ht program a replied
  obtain ⟨_, holds⟩ := reachable.finished ht program (fun m _ => h m) replied
  exact holds

def DocumentChange.fileOp? : DocumentChange → Option ResourceOp
  | .edit _ => none
  | .resource op => some op

def DocumentChanges.fileOps : DocumentChanges → List ResourceOp
  | .edits _ => []
  | .operations ops => ops.filterMap DocumentChange.fileOp?

/-- The changes of files that an edit of the workspace makes. -/
def WorkspaceEdit.fileOps (w : WorkspaceEdit) : List ResourceOp :=
  w.documentChanges.toList.flatMap DocumentChanges.fileOps

namespace Mapping

/-- A change of files that is about ordinary documents. -/
def Ordinary (op : ResourceOp) : Prop := ∀ uri ∈ op.uris, virtualUrl? uri = none

theorem wp_fileOp? (d : DocumentChange) :
    (remapDocumentChange d).wp c (fun _ _ => True) (fun result _ _ => ∀ d', result = some d' →
      ∀ op, d'.fileOp? = some op → Ordinary op) calls m := by
  cases d with
  | edit e =>
    simp only [remapDocumentChange, Action.wp_bind, Action.wp_pure]
    refine Action.wp_mono (Action.wp_trivial _) fun result _ _ _ _ d' hd' op hop => ?_
    obtain ⟨e', -, rfl⟩ := Option.map_eq_some_iff.1 hd'
    cases hop
  | resource op =>
    simp only [remapDocumentChange, Action.wp_pure]
    intro d' hd' op' hop
    split at hd'
    · cases hd'
    · next ordinary =>
      cases hd'
      cases hop
      exact touchesVirtual_eq_false_iff.1 (by simpa using ordinary)

theorem wp_fileOps (d : DocumentChanges) :
    (remapDocumentChanges d).wp c (fun _ _ => True)
      (fun result _ _ => ∀ op ∈ result.fileOps, Ordinary op) calls m := by
  cases d with
  | edits es =>
    simp only [remapDocumentChanges, Action.wp_bind, Action.wp_pure]
    refine Action.wp_mono (Action.wp_trivial _) fun _ _ _ _ _ op hop => ?_
    cases hop
  | operations ops =>
    simp only [remapDocumentChanges, Action.wp_bind, Action.wp_pure]
    refine Action.wp_mono (Action.wp_mapM (fun _ found _ _ => ∀ d', some d' ∈ found →
      ∀ op, d'.fileOp? = some op → Ordinary op) ops (by simp) ?_) ?_
    · intro _ d _ found calls' m' _ before
      refine Action.wp_mono (wp_fileOp? d) fun result _ _ _ here d' hd' => ?_
      rcases List.mem_append.1 hd' with hd' | hd'
      · exact before d' hd'
      · exact here d' (List.mem_singleton.1 hd').symm
    · intro found _ _ _ kept op hop
      obtain ⟨d', hd', hop⟩ := List.mem_filterMap.1 hop
      exact kept d' (by simpa using hd') op hop

theorem wp_workspaceFileOps (w : WorkspaceEdit) :
    (remapWorkspaceEdit w).wp c (fun _ _ => True)
      (fun result _ _ => ∀ op ∈ result.fileOps, Ordinary op) calls m := by
  simp only [remapWorkspaceEdit, Action.wp_bind, Action.wp_pure]
  refine Action.wp_mono (Action.wp_trivial _) fun _ _ _ _ _ => ?_
  cases w.documentChanges with
  | none =>
    rw [Option.mapM_none, Action.wp_pure]
    intro op hop
    cases hop
  | some d =>
    rw [Option.mapM_some, Action.wp_map]
    refine Action.wp_mono (wp_fileOps d) fun result _ _ _ ordinary => ?_
    simpa [WorkspaceEdit.fileOps] using ordinary

/-- No place in a document is given back as it is: where its URL stands in a reply, the place has
come back to a host of that name. Changes of files are never about it. -/
structure TakesBack (c : Collaborators σ) (url : Url) : Prop where
  locations : ∀ locations, (remapLocations locations).Ensures c fun result calls =>
    ∀ l ∈ result, l.uri.toUrl? = some url → Back calls l
  links : ∀ links, (remapLinks links).Ensures c fun result calls =>
    ∀ link ∈ result, ∀ l ∈ link.places, l.uri.toUrl? = some url → Back calls l
  edits : ∀ w, (remapWorkspaceEdit w).Ensures c fun result calls =>
    ∀ l ∈ result.places, l.uri.toUrl? = some url → Back calls l
  fileOps : ∀ w, (remapWorkspaceEdit w).Ensures c fun result _ =>
    ∀ op ∈ result.fileOps, ∀ uri ∈ op.uris, uri.toUrl? ≠ some url

theorem virtualUrl?_eq {uri : Uri} {url : Url} (named : uri.toUrl? = some url) :
    virtualUrl? uri = if VirtualUri.isVirtualUrl url then some url else none := by
  rw [virtualUrl?, named]

theorem takesBack_of_isVirtualUrl {url : Url} (h : VirtualUri.isVirtualUrl url = true) :
    TakesBack c url := by
  have recognized {uri : Uri} (named : uri.toUrl? = some url) : virtualUrl? uri ≠ none := by
    simp [virtualUrl?_eq named, h]
  have back {given : List Location} {calls : List (Call σ)} {l : Location}
      (traced : Traced given calls l) (named : l.uri.toUrl? = some url) : Back calls l :=
    traced.resolve_left fun ordinary => recognized named ordinary.2
  have free : Free (fun (_ : List (Call σ)) _ => True) := fun _ _ _ _ _ => trivial
  refine ⟨fun locations => ?_, fun links => ?_, fun w => ?_, fun w => ?_⟩
  · refine Action.ensures_of_wp fun m => ?_
    exact Action.wp_mono (wp_remapLocations free locations) fun _ _ _ _ traced l hl =>
      back (traced l hl)
  · refine Action.ensures_of_wp fun m => ?_
    exact Action.wp_mono (wp_remapLinks free links) fun _ _ _ _ traced link hlink l hl =>
      back (traced link hlink l hl)
  · refine Action.ensures_of_wp fun m => ?_
    exact Action.wp_mono (wp_remapWorkspaceEdit free w) fun _ _ _ _ traced l hl =>
      back (traced l hl)
  · refine Action.ensures_of_wp fun m => ?_
    exact Action.wp_mono (wp_workspaceFileOps w) fun _ _ _ _ ordinary op hop uri huri named =>
      recognized named (ordinary op hop uri huri)

end Mapping

/-- The name of a virtual document is recognized exactly if its host is recognizable, be it as a
text or as the URL that a URI names; and then no place in the document is ever given back as one in
an ordinary document. -/
theorem VirtualUri.recognized_iff {s : String} {v : VirtualUri}
    (read : Url.parse? s = some v.host) :
    (isVirtual v.url.text = true ↔ Recognizable v.host) ∧
      (∀ uri : Uri, uri.toUrl? = some v.url →
        Mapping.virtualUrl? uri = if Recognizable v.host then some v.url else none) ∧
      (Recognizable v.host → Mapping.TakesBack c v.url) := by
  refine ⟨isVirtual_text_iff read, fun uri named => ?_, fun recognizable => ?_⟩
  · simp only [Mapping.virtualUrl?_eq named, v.isVirtualUrl_iff]
  · exact Mapping.takesBack_of_isVirtualUrl (v.isVirtualUrl_iff.2 recognizable)

/-! ## Names in the sample -/

open Scenario Scenario.Sample

namespace Scenario.Sample

/-- A place in a file and one elsewhere are taken back while a host is open and its code is
ready. -/
def returning (host : Url) (file : Uri) : Session Script (Except RouterError (List Location)) :=
  (Session.new (script (some 1) [])).play Script.collaborators [
    .changed (.stored (.opened host 1 "@word")),
    .changed (.regenerated ⟨host, .csharp, 1, [⟨0, 0, "word"⟩]⟩),
    .spawned false (Mapping.remapLocations [⟨file, word⟩, elsewhere]),
    .polled 0]

theorem reachable_returning {host : Url} {file : Uri} :
    (returning host file).Reachable Script.collaborators := (Session.Reachable.new _).play _

theorem program_returning {host : Url} {file : Uri}
    {t : Thread Script (Except RouterError (List Location))}
    (ht : t ∈ (returning host file).threads) :
    t.program = Mapping.remapLocations [⟨file, word⟩, elsewhere] :=
  List.mem_singleton.1 (Session.program_mem_begun ht)

/-- The name of the code's own code. -/
def nestedFile : Uri := ⟨"file:///p/I.razor__virtual.cs__virtual.cs", by decide +kernel⟩

/-- A host whose file name is empty. -/
def folderUrl : Url :=
  ⟨"file".toList, some ⟨[], [], none⟩, .segments ["p".toList, []], none, none⟩

def folderCode : VirtualUri where
  host := folderUrl
  language := .csharp
  url := { folderUrl with path := .segments ["p".toList, "__virtual.cs".toList] }
  derived := by decide +kernel

def folderFile : Uri := ⟨"file:///p/__virtual.cs", by decide +kernel⟩

end Scenario.Sample

/-- A place in the code comes back to the host; and one in the code's own code, while the code is
open as a host, comes back to the code. -/
theorem VirtualUri.recognized_iff_code :
    isVirtual codeUri.url.text = true ∧ Mapping.virtualUrl? codeFile = some codeUri.url ∧
      (returning hostUrl codeFile).threads.map (·.reply?) =
        [some [⟨hostUri, word⟩, elsewhere]] ∧
      ∃ t ∈ (returning codeUri.url nestedFile).threads,
        t.reply? = some [⟨codeFile, word⟩, elsewhere] ∧ Mapping.Back t.calls ⟨codeFile, word⟩ := by
  have read : Url.parse? hostUri.text = some codeUri.host := by decide +kernel
  have recognizable : Recognizable codeUri.host := by decide +kernel
  obtain ⟨name, seen, taken⟩ := recognized_iff (c := Script.collaborators) read
  have named : codeFile.toUrl? = some codeUri.url := by decide +kernel
  have replied : (returning codeUri.url nestedFile).threads.map (·.reply?) =
      [some [⟨codeFile, word⟩, elsewhere]] := by decide +kernel
  obtain ⟨t, ht, reply⟩ := List.mem_map.1 (replied ▸ List.mem_singleton_self _)
  refine ⟨name.2 recognizable, ?_, by decide +kernel, t, ht, reply, ?_⟩
  · rw [seen codeFile named, if_pos recognizable]
  · exact (taken recognizable).locations _ _ reachable_returning t ht (program_returning ht) _ reply
      _ List.mem_cons_self named

/-- The code of a host without a file name is open under a name that is not recognized, and places
in it are given back as they are. -/
theorem VirtualUri.folder_not_recognized :
    Url.parse? "file:///p/" = some folderCode.host ∧ isVirtual folderCode.url.text = false ∧
      folderFile.toUrl? = some folderCode.url ∧
      (returning folderUrl folderFile).world.core.store.resolve? folderCode.url =
        some (folderUrl, .csharp) ∧
      (returning folderUrl folderFile).threads.map (·.reply?) =
        [some [⟨folderFile, word⟩, elsewhere]] := by
  decide +kernel

end PolyglotLsp
