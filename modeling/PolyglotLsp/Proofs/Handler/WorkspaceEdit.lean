import PolyglotLsp.Proofs.Handler.Remapping

/-!
# Edits of several documents at once

An edit of several documents says what happens to each of them: a document's own edits stay with it,
and those of a virtual document go to its host, as far as the mapping service has a place for them
(`RangeService.Home`). The edits that so come to one document are put together there, and nothing
else is (`Mapping.Grouped`), in whatever order the documents are taken. A list of document changes
keeps its order and loses what has no place (`RangeService.documentChanges`).
-/

namespace PolyglotLsp

variable {σ : Type} {c : Collaborators σ} {store : Store}

theorem Table.mem_keys_iff {κ β : Type} [DecidableEq κ] {t : Table κ β} {k : κ} :
    k ∈ t.map (·.1) ↔ ∃ v, t.get? k = some v := by
  induction t with
  | nil => simp
  | cons e t ih =>
    rw [List.map_cons, List.mem_cons, ih, Table.get?]
    by_cases first : e.1 = k
    · simp [first]
    · simp [first, Ne.symm first]

/-- Where the edits of a virtual document belong: the URI of its host and the version that the host
has, and where ranges lie in the host. -/
structure RangeService.Home where
  uri : Uri
  version : Int
  image? : Range → Option Range

namespace RangeService.Home

variable (home : Home)

/-- An edit where it belongs; `none` if its range has no place there. -/
def edit? (e : TextEdit) : Option TextEdit :=
  (home.image? e.range).map fun range => { e with range }

def annotatedEdit? (a : AnnotatedEdit) : Option AnnotatedEdit :=
  (home.edit? a.edit).map fun edit => { a with edit }

theorem moveEdits_image? (edits : List TextEdit) :
    Mapping.moveEdits edits ((edits.map (·.range)).map home.image?) =
      edits.filterMap home.edit? := by
  rw [Mapping.moveEdits, List.map_map, ← List.map_prod_left_eq_zip, List.filterMap_map]
  rfl

end RangeService.Home

/-- The URIs that a change of files is about. -/
def ResourceOp.uris : ResourceOp → List Uri
  | .create uri .. | .delete uri .. => [uri]
  | .rename oldUri newUri .. => [oldUri, newUri]

namespace RangeService

open Mapping (virtualUrl?)

variable (service : RangeService)

/-- Where the edits of a virtual document belong; `none` if the service's answers about it do not
count, or its host has no URI. -/
def home? (store : Store) (url : Url) : Option Home :=
  (service.known? store url).bind fun (host, language, version) =>
    host.toUri?.map fun uri => ⟨uri, version, service.image? language host⟩

/-- The document to which the edits of one document come, and what becomes of them. -/
def share? (store : Store) : Uri × List TextEdit → Option (Uri × List TextEdit)
  | (uri, edits) =>
    match virtualUrl? uri with
    | none => some (uri, edits)
    | some url => (service.home? store url).map fun home => (home.uri, edits.filterMap home.edit?)

/-- What becomes of the edits of one document, which may carry annotations. -/
def documentEdit? (store : Store) (e : DocumentEdit) : Option DocumentEdit :=
  match virtualUrl? e.uri with
  | none => some e
  | some url =>
    (service.home? store url).map fun home =>
      ⟨home.uri, some home.version, e.edits.filterMap home.annotatedEdit?⟩

/-- What becomes of an entry among document changes: changes of files are kept unless they are about
a virtual document. -/
def documentChange? (store : Store) : DocumentChange → Option DocumentChange
  | .edit e => (service.documentEdit? store e).map .edit
  | .resource op => if ∀ uri ∈ op.uris, virtualUrl? uri = none then some (.resource op) else none

/-- What becomes of document changes. -/
def documentChanges (store : Store) : DocumentChanges → DocumentChanges
  | .edits es => .edits (es.filterMap (service.documentEdit? store))
  | .operations ops => .operations (ops.filterMap (service.documentChange? store))

variable {service}

theorem version?_eq_some_iff {language : Language} {host : Url} {expected version : Int} :
    service.version? store language host expected = some version ↔
      service.stamp? language host = some (some expected) ∧
        store.hostVersion? host = some expected ∧ version = expected := by
  unfold version?
  cases service.stamp? language host with
  | none => simp
  | some stamp =>
    simp only [Option.bind_eq_bind, Option.bind_some, Option.ite_none_right_eq_some,
      Option.some.injEq, and_assoc, eq_comm (a := expected)]

/-- The edits of a virtual document belong to the host that the store finds for it, if the service's
answers bear the version at which the host is open. -/
theorem home?_eq_some_iff {url : Url} {home : Home} :
    service.home? store url = some home ↔
      ∃ host language, store.resolve? url = some (host, language) ∧
        store.hostVersion? host = some home.version ∧
        service.stamp? language host = some (some home.version) ∧
        host.toUri? = some home.uri ∧ home.image? = service.image? language host := by
  simp only [home?, known?, Option.bind_eq_some_iff, Option.map_eq_some_iff, Prod.exists,
    Prod.mk.injEq, version?_eq_some_iff]
  constructor
  · rintro ⟨host, language, version, ⟨_, _, resolved, _, opened, _, ⟨stamp, -, rfl⟩, rfl, rfl, rfl⟩,
      uri, named, rfl⟩
    exact ⟨_, _, resolved, opened, stamp, named, rfl⟩
  · rintro ⟨host, language, resolved, opened, stamp, named, image⟩
    refine ⟨host, language, home.version,
      ⟨host, language, resolved, _, opened, _, ⟨stamp, opened, rfl⟩, rfl, rfl, rfl⟩,
      home.uri, named, ?_⟩
    rw [← image]

theorem mapped?_eq_map_home? (url : Url) (ranges : List Range) :
    service.mapped? store url ranges =
      (service.home? store url).map fun home =>
        (home.uri, ⟨ranges.map home.image?, home.version⟩) := by
  unfold mapped? home?
  rcases service.known? store url with _ | ⟨host, language, version⟩
  · rfl
  · simp only [Option.bind_some, Option.map_map]
    rfl

end RangeService

namespace Mapping

variable {service : RangeService}

/-! ## Edits by document -/

/-- The edits under a URI. -/
def editsUnder (changes : List (Uri × List TextEdit)) (uri : Uri) : List TextEdit :=
  (changes.filter (·.1 = uri)).flatMap (·.2)

/-- The second list has one entry for each URI of the first, with all its edits. -/
structure Grouped (shares changes : List (Uri × List TextEdit)) : Prop where
  distinct : (changes.map (·.1)).Nodup
  named : ∀ uri, uri ∈ changes.map (·.1) ↔ uri ∈ shares.map (·.1)
  edits : ∀ uri, (editsUnder changes uri).Perm (editsUnder shares uri)

theorem editsUnder_append (shares more : List (Uri × List TextEdit)) (uri : Uri) :
    editsUnder (shares ++ more) uri = editsUnder shares uri ++ editsUnder more uri := by
  simp only [editsUnder, List.filter_append, List.flatMap_append]

theorem editsUnder_perm {shares shares' : List (Uri × List TextEdit)} (h : shares.Perm shares')
    (uri : Uri) : (editsUnder shares uri).Perm (editsUnder shares' uri) :=
  (h.filter _).flatMap_right _

theorem editsUnder_eq_get? {changes : List (Uri × List TextEdit)}
    (distinct : (changes.map (·.1)).Nodup) (uri : Uri) :
    editsUnder changes uri = (Table.get? changes uri).getD [] := by
  induction changes with
  | nil => rfl
  | cons e changes ih =>
    rw [List.map_cons, List.nodup_cons] at distinct
    rw [editsUnder, List.filter_cons, Table.get?]
    by_cases first : e.1 = uri
    · have others : changes.filter (·.1 = uri) = [] := by
        refine List.filter_eq_nil_iff.2 fun e' he' same => distinct.1 ?_
        rw [first, ← of_decide_eq_true same]
        exact List.mem_map_of_mem he'
      simp [first, others]
    · simp only [first, decide_false, Bool.false_eq_true, if_false]
      exact ih distinct.2

theorem Grouped.nil : Grouped [] [] := ⟨.nil, fun _ => .rfl, fun _ => .rfl⟩

/-- Adding edits under a URI, which may be there already. -/
theorem Grouped.addEdits {shares changes : List (Uri × List TextEdit)} (h : Grouped shares changes)
    (uri : Uri) (edits : List TextEdit) :
    Grouped (shares ++ [(uri, edits)]) (addEdits changes uri edits) := by
  have distinct : ((Mapping.addEdits changes uri edits).map (·.1)).Nodup :=
    Table.nodup_keys_set h.distinct ..
  refine ⟨distinct, fun other => ?_, fun other => ?_⟩
  · rw [List.map_append, List.mem_append, ← h.named other, Table.mem_keys_iff, Table.mem_keys_iff,
      Mapping.addEdits, Table.get?_set]
    by_cases here : uri = other
    · simp [here]
    · simp [here, Ne.symm here]
  · have same : editsUnder (Mapping.addEdits changes uri edits) other =
        editsUnder changes other ++ editsUnder [(uri, edits)] other := by
      rw [editsUnder_eq_get? distinct, editsUnder_eq_get? h.distinct, Mapping.addEdits,
        Table.get?_set]
      by_cases here : uri = other
      · simp [editsUnder, here]
      · simp [editsUnder, here]
    rw [same, editsUnder_append]
    exact (h.edits other).append_right _

theorem Grouped.foldl_addEdits {shares changes : List (Uri × List TextEdit)}
    (h : Grouped shares changes) (more : List (Uri × List TextEdit)) :
    Grouped (shares ++ more)
      (more.foldl (fun done e => Mapping.addEdits done e.1 e.2) changes) := by
  induction more generalizing shares changes with
  | nil =>
    rw [List.append_nil]
    exact h
  | cons e more ih =>
    rw [List.append_cons]
    exact ih (h.addEdits e.1 e.2)

theorem Grouped.of_perm {shares shares' changes : List (Uri × List TextEdit)}
    (h : Grouped shares' changes) (perm : shares.Perm shares') : Grouped shares changes where
  distinct := h.distinct
  named uri := (h.named uri).trans (perm.map _).mem_iff.symm
  edits uri := (h.edits uri).trans (editsUnder_perm perm uri).symm

/-- The edits of all documents, gathered where they belong. -/
def gathered (service : RangeService) (store : Store) (changes : List (Uri × List TextEdit)) :
    List (Uri × List TextEdit) :=
  (changes.filterMap (service.share? store)).foldl (fun done e => addEdits done e.1 e.2) []

theorem grouped_gathered {changes changes' : List (Uri × List TextEdit)}
    (perm : changes.Perm changes') :
    Grouped (changes.filterMap (service.share? store)) (gathered service store changes') :=
  (Grouped.nil.foldl_addEdits _).of_perm (perm.filterMap _)

/-! ## Changes of files -/

theorem isVirtual_text (uri : Uri) :
    VirtualUri.isVirtual uri.text = (virtualUrl? uri).isSome := by
  unfold VirtualUri.isVirtual virtualUrl? Uri.toUrl?
  cases Url.parse? uri.text with
  | none => rfl
  | some url => cases named : VirtualUri.isVirtualUrl url <;> simp [named]

theorem touchesVirtual_eq_false_iff {op : ResourceOp} :
    touchesVirtual op = false ↔ ∀ uri ∈ op.uris, virtualUrl? uri = none := by
  cases op <;> simp [touchesVirtual, ResourceOp.uris, isVirtual_text]

/-! ## Whole edits -/

section Serves

variable (serves : service.Serves c)

include serves

theorem yields_remapChanges (changes : List (Uri × List TextEdit)) :
    (remapChanges changes).Yields c store (gathered service store changes) := by
  rw [gathered, List.foldl_filterMap]
  refine Action.Yields.foldlM (fun done (uri, edits) => ?_) changes []
  simp only [RangeService.share?]
  cases virtualUrl? uri with
  | none => exact .pure _
  | some url =>
    have mapped : (mapVirtual url (edits.map (·.range))).Yields c store _ :=
      yields_mapVirtual serves url _
    rw [RangeService.mapped?_eq_map_home?] at mapped
    refine mapped.bind ?_
    simp only
    cases service.home? store url with
    | none => exact .pure _
    | some home =>
      simp only [Option.map_some, home.moveEdits_image?]
      exact .pure _

theorem yields_remapDocumentEdit (e : DocumentEdit) :
    (remapDocumentEdit e).Yields c store (service.documentEdit? store e) := by
  unfold remapDocumentEdit RangeService.documentEdit?
  cases virtualUrl? e.uri with
  | none => exact .pure _
  | some url =>
    have mapped : (mapVirtual url (e.edits.map (·.edit.range))).Yields c store _ :=
      yields_mapVirtual serves url _
    rw [RangeService.mapped?_eq_map_home?] at mapped
    refine mapped.bind ?_
    simp only
    cases service.home? store url with
    | none => exact .pure _
    | some home =>
      have moved : (e.edits.zip ((e.edits.map (·.edit.range)).map home.image?)).filterMap
          (fun x => x.2.map fun range => { x.1 with edit := { x.1.edit with range } }) =
            e.edits.filterMap home.annotatedEdit? := by
        rw [List.map_map, ← List.map_prod_left_eq_zip, List.filterMap_map]
        congr 1
        funext a
        rw [RangeService.Home.annotatedEdit?, RangeService.Home.edit?, Option.map_map]
        rfl
      simp only [Option.map_some, ← moved]
      exact .pure _

theorem yields_remapDocumentChange (change : DocumentChange) :
    (remapDocumentChange change).Yields c store (service.documentChange? store change) := by
  cases change with
  | edit e => exact (yields_remapDocumentEdit serves e).bind (.pure _)
  | resource op =>
    simp only [RangeService.documentChange?, ← touchesVirtual_eq_false_iff, remapDocumentChange]
    cases touchesVirtual op <;> exact .pure _

theorem yields_remapDocumentChanges (changes : DocumentChanges) :
    (remapDocumentChanges changes).Yields c store (service.documentChanges store changes) := by
  cases changes with
  | edits es =>
    refine (Action.Yields.mapM es fun e _ => yields_remapDocumentEdit serves e).bind ?_
    rw [List.filterMap_map]
    exact .pure _
  | operations ops =>
    refine (Action.Yields.mapM ops fun op _ => yields_remapDocumentChange serves op).bind ?_
    rw [List.filterMap_map]
    exact .pure _

theorem yields_remapWorkspaceEdit (w : WorkspaceEdit) :
    (remapWorkspaceEdit w).Yields c store
      { changes := w.changes.map (gathered service store)
        documentChanges := w.documentChanges.map (service.documentChanges store)
        annotations := w.annotations } := by
  refine (Action.Yields.optionMapM (yields_remapChanges serves) w.changes).bind ?_
  refine (Action.Yields.optionMapM (yields_remapDocumentChanges serves) w.documentChanges).bind ?_
  exact .pure _

end Serves

/-- The same edit, whose documents may be listed in another order. -/
structure Reordered (w w' : WorkspaceEdit) : Prop where
  changes : Option.Rel List.Perm w.changes w'.changes
  documentChanges : w'.documentChanges = w.documentChanges
  annotations : w'.annotations = w.annotations

/-- An edit takes every part of another one to where it belongs, and has no other parts. -/
structure Conserves (service : RangeService) (store : Store) (w result : WorkspaceEdit) : Prop where
  changes : Option.Rel (fun changes gathered =>
    Grouped (changes.filterMap (service.share? store)) gathered) w.changes result.changes
  documentChanges : result.documentChanges = w.documentChanges.map (service.documentChanges store)
  annotations : result.annotations = w.annotations

/-- An edit of several documents loses and gains nothing on its way back to the hosts, in whatever
order its documents are taken, if the store stands still and the mapping service answers for each
range by itself. -/
theorem remapWorkspaceEdit_conserves (serves : service.Serves c) {looks : Nat → World σ}
    (still : Standstill store looks) {w w' : WorkspaceEdit} (reordered : Reordered w w') :
    (∃ n result, ((TaskState.ready (remapWorkspaceEdit w').run).turns c
        ((List.range n).map fun i => (.own, looks i))).1 = .finished (.ok result) ∧
      Conserves service store w result) ∧
    ∀ url home, service.home? store url = some home ↔
      ∃ host language, store.resolve? url = some (host, language) ∧
        store.hostVersion? host = some home.version ∧
        service.stamp? language host = some (some home.version) ∧
        host.toUri? = some home.uri ∧ home.image? = service.image? language host := by
  refine ⟨?_, fun url home => RangeService.home?_eq_some_iff⟩
  obtain ⟨n, ended⟩ := (yields_remapWorkspaceEdit serves w').exists_finished still
  refine ⟨n, _, ended, ?_, ?_, reordered.annotations⟩
  · rcases w.changes, w'.changes, reordered.changes with ⟨_, _, perm | _⟩
    · exact .some (grouped_gathered perm)
    · exact .none
  · rw [reordered.documentChanges]

end Mapping

/-! ## A rename in the sample -/

open Scenario Scenario.Sample

namespace Scenario.Sample

/-- The name of the sample's markup. -/
def markupFile : Uri := ⟨"file:///p/I.razor__virtual.html", by decide +kernel⟩

/-- Four letters at the start of a line become a new name. -/
def renamed (line : Nat) : TextEdit := ⟨⟨⟨line, 0⟩, ⟨line, 4⟩⟩, "name"⟩

def labelled (line : Nat) : AnnotatedEdit := ⟨renamed line, some "rename"⟩

/-- A new name in the host, its code, its markup and another document, in both forms; the code's
third line has no place in the host. -/
def renameEdit : WorkspaceEdit where
  changes := some [(hostUri, [renamed 3]), (codeFile, [renamed 0, renamed 2, renamed 1]),
    (elsewhere.uri, [renamed 0]), (markupFile, [renamed 4])]
  documentChanges := some (.operations [
    .edit ⟨elsewhere.uri, none, [labelled 0]⟩, .resource (.delete codeFile none none),
    .edit ⟨codeFile, some 7, [labelled 2, labelled 1]⟩,
    .resource (.rename elsewhere.uri hostUri none none)])
  annotations := some [("rename", ⟨"Rename", none, none⟩)]

/-- The same with the documents in another order. -/
def renameEdit' : WorkspaceEdit :=
  { renameEdit with
    changes := some [(markupFile, [renamed 4]), (codeFile, [renamed 0, renamed 2, renamed 1]),
      (elsewhere.uri, [renamed 0]), (hostUri, [renamed 3])] }

end Scenario.Sample

theorem Mapping.remapWorkspaceEdit_conserves_rename :
    ∃ n result changes, ((TaskState.ready (Mapping.remapWorkspaceEdit renameEdit').run).turns steady
        ((List.range n).map fun i => (.own, steadyWorld i))).1 = .finished (.ok result) ∧
      result.changes = some changes ∧
      (Mapping.editsUnder changes hostUri).Perm [renamed 3, renamed 0, renamed 1, renamed 4] ∧
      (Mapping.editsUnder changes elsewhere.uri).Perm [renamed 0] ∧
      (Mapping.editsUnder changes codeFile).Perm [] ∧
      result.documentChanges = some (.operations [
        .edit ⟨elsewhere.uri, none, [labelled 0]⟩, .edit ⟨hostUri, some 1, [labelled 1]⟩,
        .resource (.rename elsewhere.uri hostUri none none)]) ∧
      result.annotations = renameEdit.annotations := by
  have reordered : Mapping.Reordered renameEdit renameEdit' :=
    ⟨.some (by decide +kernel), rfl, rfl⟩
  obtain ⟨n, result, ended, conserved⟩ :=
    (Mapping.remapWorkspaceEdit_conserves serves_steady standstill_steady reordered).1
  obtain ⟨changes, documentChanges, annotations⟩ := conserved
  rcases given : result.changes with _ | gathered
  · rw [given] at changes
    cases changes
  rw [given] at changes
  cases changes with
  | some grouped =>
    refine ⟨n, result, gathered, ended, given, ?_, ?_, ?_, ?_, annotations⟩
    · exact (grouped.edits hostUri).trans (by decide +kernel)
    · exact (grouped.edits elsewhere.uri).trans (by decide +kernel)
    · exact (grouped.edits codeFile).trans (by decide +kernel)
    · exact documentChanges.trans (by decide +kernel)

end PolyglotLsp
