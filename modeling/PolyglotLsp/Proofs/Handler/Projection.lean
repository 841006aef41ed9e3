import PolyglotLsp.Handler.Projection
import PolyglotLsp.Proofs.Session.Synchronization

/-!
# What a projection rests on

A request about a position is projected before any server is asked. Whatever happens meanwhile, a
projection rests on a snapshot of the host taken at the start, on a classification of the request's
position, and on a virtual document of that host which reflects the snapshot's version
(`Projection.wp_resolve`). Nothing that speaks against the request has been answered on the way, and
no server has been asked.
-/

namespace PolyglotLsp

variable {σ α : Type} {c : Collaborators σ} {I : List (Call σ) → Op → Prop}
  {calls calls' : List (Call σ)} {m : Moment σ}

/-! ## Calls before and after servers are asked -/

def Op.asks : Op → Bool
  | .askFirst .. | .askAll .. | .ask .. => true
  | _ => false

/-- Whether an operation is one by which a request gets ready to ask servers. -/
def Op.prepares : Op → Bool
  | .host _ | .classify .. | .synchronize .. => true
  | _ => false

/-- A rule about getting ready and asking leaves all other operations free, but for stopping the
listeners of other requests. -/
def Free (I : List (Call σ) → Op → Prop) : Prop :=
  ∀ calls o, o.asks = false → o.prepares = false → StopsOwn calls o → I calls o

/-- Whether a call speaks against asking any server: the host is not open, the position is not
classified or not of an embedded language, or the virtual document does not get ready. -/
def Call.refuses : Call σ → Bool
  | ⟨.host _, _, _, none⟩ => true
  | ⟨.classify .., _, _, some (.ok (some a))⟩ => !a.language.isEmbedded
  | ⟨.classify .., _, _, _⟩ => true
  | ⟨.synchronize .., _, _, none⟩ => true
  | _ => false

/-- The snapshot of the host that a request took at its start. -/
def snapshot? : List (Call σ) → Option HostSnapshot
  | ⟨.host _, _, _, h⟩ :: _ => h
  | _ => none

theorem snapshot?_later {h : HostSnapshot} (hs : snapshot? calls = some h)
    (hp : calls <+: calls') : snapshot? calls' = some h := by
  obtain ⟨later, rfl⟩ := hp
  cases calls with
  | nil => cases hs
  | cons k calls =>
    unfold snapshot? at hs ⊢
    split at hs
    · next hk =>
      cases hk
      exact hs
    · cases hs

/-- A request saw an open host at its start: its first operation read the host off the store. -/
def Began (calls : List (Call σ)) (h : HostSnapshot) : Prop :=
  ∃ start later, calls = ⟨.host h.url, start, start, some h⟩ :: later ∧ start.Sound ∧
    start.store.get? h.url = some h

theorem Began.snapshot? {h : HostSnapshot} (hb : Began calls h) : snapshot? calls = some h := by
  obtain ⟨start, later, rfl, -⟩ := hb
  rfl

theorem began_of_snapshot? {h : HostSnapshot} (hs : snapshot? calls = some h)
    (hg : ∀ k ∈ calls, k.Genuine c) : Began calls h := by
  unfold snapshot? at hs
  split at hs
  · next url asked answered _ later =>
    subst hs
    have genuine := hg _ List.mem_cons_self
    have answers : answered = asked ∧ some h = asked.store.get? url := genuine.answers
    obtain ⟨rfl, hget⟩ := answers
    have named : (Store.after answered.edits).get? url = some h := by
      rw [hget, ← genuine.asked]
    obtain ⟨rfl, -⟩ := Store.named_of_get? named
    exact ⟨answered, later, rfl, genuine.asked, hget.symm⟩
  · cases hs

/-! ## Projections -/

/-- What a projection of a place rests on: the calls made for it, the name of the virtual document
and the classification. -/
structure Projected (place : Place) (p : Projection) (v : VirtualUri) (a : Classification)
    (calls : List (Call σ)) : Prop where
  snapshot : snapshot? calls = some p.host
  host : place.uri.toUrl? = some p.host.url
  classified : ∃ asked answered,
    ⟨.classify p.host.url place.position, asked, answered, some (.ok (some a))⟩ ∈ calls
  position : p.position = a.position
  language : v.language = a.language
  hosted : v.host = p.host.url
  uri : v.url.toUri? = some p.uri
  synchronized : a.hostVersion = none ∨ ∃ k ∈ calls, ∃ d found version,
    k.synchronized? = some (p.host.version, d, found) ∧ found.uri = v ∧
      found.hostVersion = some version ∧ p.host.version ≤ version
  willing : ∀ k ∈ calls, k.refuses = false
  quiet : ∀ k ∈ calls, k.op.asks = false

/-- More calls that ask no server and speak against nothing leave a projection as it is. -/
theorem Projected.append {place : Place} {p : Projection} {v : VirtualUri} {a : Classification}
    (h : Projected place p v a calls) {k : Call σ} (hr : k.refuses = false)
    (hq : k.op.asks = false) : Projected place p v a (calls ++ [k]) := by
  have earlier {k' : Call σ} (hk : k' ∈ calls) : k' ∈ calls ++ [k] := List.mem_append_left _ hk
  refine { h with snapshot := ?_, classified := ?_, synchronized := ?_, willing := ?_, quiet := ?_ }
  · exact snapshot?_later h.snapshot (List.prefix_append ..)
  · obtain ⟨asked, answered, hk⟩ := h.classified
    exact ⟨asked, answered, earlier hk⟩
  · refine h.synchronized.imp_right ?_
    rintro ⟨k', hk, hrest⟩
    exact ⟨k', earlier hk, hrest⟩
  · simpa [or_imp, forall_and, hr] using h.willing
  · simpa [or_imp, forall_and, hq] using h.quiet

/-- What a rule must allow for a request about a position: to get ready while no server has been
asked, to ask about the place where the request was projected to, and all that has nothing to do
with either, but for stopping the listeners of other requests. -/
structure Allows (I : List (Call σ) → Op → Prop) (r : PositionRequest) : Prop where
  free : Free I
  early : ∀ calls o, o.asks = false → StopsOwn calls o → (∀ k ∈ calls, k.op.asks = false) →
    I calls o
  ask : ∀ {calls p v a shape contentTypes} {r' : PositionRequest}, Projected r.place p v a calls →
    r'.place = ⟨p.uri, p.position⟩ → I calls (.askFirst shape r.ask.method contentTypes
      (.ok r'.toJson))

theorem HostSnapshot.uri_of_virtual? {url : Url} {h : HostSnapshot} {language : Language}
    {d : VirtualSnapshot} {past : List Store.Event} (hs : (Store.after past).get? url = some h)
    (hd : h.virtual? language = some d) :
    h.url = url ∧ d.uri.host = url ∧ d.uri.language = language := by
  obtain ⟨hu, hn⟩ := Store.named_of_get? hs
  have hm : d.uri ∈ Store.virtualUris url := hn ▸ List.mem_map_of_mem (List.mem_of_find?_eq_some hd)
  have hl : d.language = language := by simpa using List.find?_some hd
  exact ⟨hu, Store.host_of_mem_virtualUris hm, hl⟩

namespace Projection

theorem wp_hostOf (uri : Uri) (hI : ∀ url, I [] (.host url)) :
    (hostOf uri).wp c I (fun h calls m' => ∀ found, h = some found →
      ∃ url, uri.toUrl? = some url ∧ calls = [⟨.host url, m', m', some found⟩] ∧
        m'.Sound ∧ m'.store.get? url = some found) [] m := by
  unfold hostOf
  split
  · simp
  · next url hu =>
    refine Action.wp_call (hI url) fun answered r hk found hr => ?_
    have hans : answered = m ∧ r = m.store.get? url := hk.answers
    obtain ⟨rfl, hget⟩ := hans
    exact ⟨url, hu, by rw [hr]; rfl, hk.asked, by rw [← hget, hr]⟩

theorem wp_serverUri (url : Url) {Q : Post σ Uri}
    (h : ∀ uri, url.toUri? = some uri → Q uri calls m) : (serverUri url).wp c I Q calls m := by
  unfold serverUri
  split
  · next uri hu => simpa using h uri hu
  · simp

/-- The virtual document to ask about: it is of the classified language, and reflects the host
unless the classification is about no version. -/
theorem wp_synchronized (h : HostSnapshot) (a : Classification)
    (hI : ∀ d, I calls (.synchronize h.version d)) :
    (synchronized h a).wp c I (fun u calls' _ => ∀ url, u = some url →
      ∃ d more, h.virtual? a.language = some d ∧ d.url = url ∧ a.language.isEmbedded = true ∧
        calls' = calls ++ more ∧ (∀ k ∈ more, k.refuses = false ∧ k.op.asks = false) ∧
        (a.hostVersion = none ∨ ∃ k ∈ more, ∃ found version,
          k.synchronized? = some (h.version, d, found) ∧ found.uri = d.uri ∧
            found.hostVersion = some version ∧ h.version ≤ version)) calls m := by
  unfold synchronized
  split
  · simp
  · next he =>
    have he : a.language.isEmbedded = true := by simpa using he
    split
    · simp
    · next d hd =>
      split
      · next hv =>
        simp only [Action.wp_pure, Option.some.injEq]
        rintro url rfl
        exact ⟨d, [], hd, rfl, he, by simp, by simp, .inl hv⟩
      · simp only [Action.wp_bind, Action.wp_pure]
        refine Action.wp_call (hI d) fun answered r hk url hr => ?_
        obtain ⟨found, rfl, rfl⟩ := Option.map_eq_some_iff.1 hr
        obtain ⟨huri, ⟨version, hv, hle⟩, -⟩ := hk.answers found rfl
        refine ⟨d, _, hd, congrArg VirtualUri.url huri.symm, he, rfl, ?_, .inr ?_⟩
        · simp [Call.refuses, Op.asks]
        · exact ⟨_, List.mem_singleton_self _, found, version, rfl, huri, hv, hle⟩

/-- Every projection rests on what it should. -/
theorem wp_resolve (place : Place)
    (hI : ∀ calls o, o.asks = false → StopsOwn calls o → (∀ k ∈ calls, k.op.asks = false) →
      I calls o) :
    (resolve place).wp c I (fun p calls _ => ∀ found, p = some found →
      ∃ v a, Projected place found v a calls) [] m := by
  simp only [resolve, Action.wp_bind]
  refine Action.wp_mono (wp_hostOf place.uri fun url => hI _ _ rfl nofun (by simp)) ?_
  rintro (_ | h) calls m₁ - hh
  · simp
  obtain ⟨url, hu, rfl, hm₁, hget⟩ := hh h rfl
  simp only [Action.wp_bind]
  refine Action.wp_call (hI _ _ rfl nofun (by simp [Op.asks])) fun m₂ r hk => ?_
  rcases r with _ | answer
  · simp
  simp only [Action.wp_bind, Action.wp_ofExcept]
  rintro (_ | a) rfl
  · simp
  simp only [Action.wp_bind]
  refine Action.wp_mono (wp_synchronized h a fun d => hI _ _ rfl nofun (by simp [Op.asks])) ?_
  rintro (_ | url') calls m₃ - hsync
  · simp
  obtain ⟨d, more, hd, rfl, he, rfl, hmore, hready⟩ := hsync url' rfl
  simp only [Action.wp_bind]
  have willing : ∀ k ∈ [⟨.host url, m₁, m₁, some h⟩] ++
      [(⟨.classify h.url place.position, m₁, m₂, some (.ok (some a))⟩ : Call σ)] ++ more,
      k.refuses = false ∧ k.op.asks = false := by
    intro k hk
    rcases List.mem_append.1 hk with hk | hk
    · rcases List.mem_append.1 hk with hk | hk <;> cases List.mem_singleton.1 hk
      · exact ⟨rfl, rfl⟩
      · exact ⟨by simp [Call.refuses, he], rfl⟩
    · exact hmore k hk
  refine Action.wp_call (hI _ _ rfl nofun fun k hk => (willing k hk).2) fun m₄ contentTypes _ => ?_
  refine wp_serverUri d.url fun uri huri => ?_
  simp only [Action.wp_pure, Option.some.injEq]
  rintro found rfl
  rw [hm₁] at hget
  obtain ⟨hhost, hvhost, hvlang⟩ := HostSnapshot.uri_of_virtual? hget hd
  refine ⟨d.uri, a, Projected.append ?_ rfl rfl⟩
  exact {
    snapshot := rfl
    host := by rw [hu, hhost]
    classified := ⟨m₁, m₂, by simp⟩
    position := rfl
    language := hvlang
    hosted := by rw [hvhost, hhost]
    uri := huri
    synchronized := by
      refine hready.imp_right ?_
      rintro ⟨k, hk, found, version, hsome, hrest⟩
      exact ⟨k, by simp [hk], d, found, version, hsome, hrest⟩
    willing := fun k hk => (willing k hk).1
    quiet := fun k hk => (willing k hk).2 }

/-- Servers are asked once, about the projected place. -/
theorem wp_forward (p : Projection) (shape : Shape) (r : PositionRequest)
    {Q : Post σ (Option (Tagged shape.Val))}
    (hI : I calls (.askFirst shape r.ask.method p.contentTypes
      (.ok (r.movedTo p.uri p.position).toJson)))
    (h : ∀ answered found, Q found (calls ++ [⟨.askFirst shape r.ask.method p.contentTypes
      (.ok (r.movedTo p.uri p.position).toJson), m, answered, .ok found⟩]) answered) :
    (p.forward shape r).wp c I Q calls m := by
  simp only [forward, Action.wp_bind]
  refine Action.wp_call hI fun answered outcome _ => ?_
  rw [Action.wp_ofExcept]
  rintro found rfl
  exact h answered found

/-- A request about a position comes to nothing unless it can be projected. -/
theorem wp_projecting {β : Type} {r : PositionRequest} (hI : Allows I r)
    {f : Projection → Action (Option β)} {Q : Post σ (Option β)} (hnone : ∀ calls m, Q none calls m)
    (hsome : ∀ p v a calls m, Projected r.place p v a calls → (f p).wp c I Q calls m) :
    (do match ← resolve r.place with
        | none => pure none
        | some p => f p : Action (Option β)).wp c I Q [] m := by
  simp only [Action.wp_bind]
  refine Action.wp_mono (wp_resolve r.place hI.early) ?_
  rintro (_ | p) calls m' - hp
  · simpa using hnone calls m'
  · obtain ⟨v, a, hp⟩ := hp p rfl
    exact hsome p v a calls m' hp

/-- The snapshot that was taken at the start is still known when the servers have answered. -/
theorem wp_forwarding {r r' : PositionRequest} (hI : Allows I r) {p : Projection} {v : VirtualUri}
    {a : Classification} (hp : Projected r.place p v a calls)
    (hm : r'.ask.method = r.ask.method) (shape : Shape) {Q : Post σ (Option (Tagged shape.Val))}
    (h : ∀ found calls m, snapshot? calls = some p.host → Q found calls m) :
    (p.forward shape r').wp c I Q calls m := by
  refine p.wp_forward shape r' (hm ▸ hI.ask hp rfl) fun answered found => ?_
  exact h found _ answered (snapshot?_later hp.snapshot (List.prefix_append ..))

end Projection

end PolyglotLsp
