import PolyglotLsp.Document.Synchronizer
import PolyglotLsp.Proofs.Document.ReverseIndex

/-!
# Many waits at once

Any number of calls wait for virtual documents while documents are opened, edited, regenerated and
closed, records are forgotten, settings change, calls are cancelled and time passes, in any order. A
call subscribes to its document first and registers its request after that, and anything may happen
in between: what it begins with is the store as it was at the call, and the synchronizer and the
clock as they are when it registers. From then on it takes notice of the world only when it looks.

The records of requests follow the history: a record holds the highest version that was registered
since it was last forgotten (`records_after`), and a call is superseded exactly if its record was
forgotten since the call was registered, or a newer version has been registered under the record
(`supersedes_iff`).
-/

namespace PolyglotLsp

/-- How far a call is: it has seen the store, it waits, or it has ended. -/
inductive WaitStage where
  | called (store : Store)
  | waiting (wait : SyncWait)
  | ended (outcome : Option VirtualSnapshot)

namespace WaitStage

def outcome? : WaitStage → Option (Option VirtualSnapshot)
  | .ended outcome => some outcome
  | .called _ | .waiting _ => none

def isWaiting : WaitStage → Bool
  | .waiting _ => true
  | .called _ | .ended _ => false

end WaitStage

/-- A call: what it was asked for, whether it is cancelled, and how far it is. -/
structure Waiter where
  expected : Int
  document : VirtualSnapshot
  cancelled : Bool
  stage : WaitStage

/-- A store and a synchronizer with a clock and all calls, in the order of their starts. -/
structure WaitingRoom where
  store : Store
  synchronizer : Synchronizer
  now : Nat
  waiters : List Waiter

/-- A call waits unless its document does already, or is not open. -/
def Waiter.Waits (w : Waiter) (store : Store) : Prop :=
  w.document.isSynchronizedWith w.expected = false ∧
    (store.subscribe? w.document.host w.document.language).isSome

instance (w : Waiter) (store : Store) : Decidable (w.Waits store) :=
  inferInstanceAs (Decidable (_ ∧ _))

namespace WaitingRoom

inductive Event where
  | stored (e : Store.Event)
  | forgot (host : Url)
  | timeoutSet (timeout : Nat)
  | rejectsSet (rejects : Bool)
  | passed (time : Nat)
  | called (expected : Int) (document : VirtualSnapshot) (cancelled : Bool)
  | registered (place : Nat)
  | cancelled (place : Nat)
  | looked (place : Nat)

def new : WaitingRoom := ⟨.empty, .new Synchronizer.defaultTimeout, 0, []⟩

/-- A call that has not registered yet, with the store it has seen. -/
def caller? (r : WaitingRoom) (place : Nat) : Option (Waiter × Store) :=
  match r.waiters[place]? with
  | some w =>
    match w.stage with
    | .called store => some (w, store)
    | .waiting _ | .ended _ => none
  | none => none

def register (r : WaitingRoom) (place : Nat) : WaitingRoom :=
  match r.caller? place with
  | none => r
  | some (w, store) =>
    let (synchronizer, outcome) := r.synchronizer.begin store r.now w.expected w.document
    { r with
      synchronizer
      waiters := r.waiters.modify place ({ · with stage := outcome.elim .ended .waiting }) }

/-- A call that waits looks how it stands. -/
def look (r : WaitingRoom) (w : Waiter) : Waiter :=
  match w.stage with
  | .called _ | .ended _ => w
  | .waiting wait =>
    match r.synchronizer.verdict r.store r.now w.cancelled wait with
    | .waiting => w
    | .synchronized d => { w with stage := .ended (some d) }
    | .gaveUp => { w with stage := .ended none }

def step (r : WaitingRoom) : Event → WaitingRoom
  | .stored e => { r with store := r.store.step e }
  | .forgot host => { r with synchronizer := r.synchronizer.forget host }
  | .timeoutSet timeout => { r with synchronizer := { r.synchronizer with timeout } }
  | .rejectsSet rejects => { r with synchronizer := { r.synchronizer with rejects } }
  | .passed time => { r with now := r.now + time }
  | .called expected d cancelled =>
    { r with waiters := r.waiters ++ [⟨expected, d, cancelled, .called r.store⟩] }
  | .registered place => r.register place
  | .cancelled place => { r with waiters := r.waiters.modify place ({ · with cancelled := true }) }
  | .looked place => { r with waiters := r.waiters.modify place r.look }

/-- The room after a history, which lists the latest event first. -/
def after : List Event → WaitingRoom
  | [] => .new
  | e :: past => (after past).step e

theorem caller?_eq_some {r : WaitingRoom} {place : Nat} {w : Waiter} {store : Store}
    (hw : r.waiters[place]? = some w) (hs : w.stage = .called store) :
    r.caller? place = some (w, store) := by
  simp [caller?, hw, hs]

/-! ## What the history says -/

/-- The history of the store. -/
def edits : List Event → List Store.Event
  | [] => []
  | .stored e :: past => e :: edits past
  | _ :: past => edits past

/-- The versions of a virtual document that calls have registered since its record was last
forgotten. -/
def requested (url : Url) : List Event → List Int
  | [] => []
  | .registered place :: past =>
    match (after past).caller? place with
    | none => requested url past
    | some (w, store) =>
      if w.document.url = url ∧ w.Waits store then w.expected :: requested url past
      else requested url past
  | .forgot host :: past => if url ∈ Store.names host then [] else requested url past
  | _ :: past => requested url past

/-- The record of a virtual document is forgotten on the way. -/
def ForgottenIn (url : Url) (during : List Event) : Prop :=
  ∃ host, .forgot host ∈ during ∧ url ∈ Store.names host

theorem edits_append (later past : List Event) :
    edits (later ++ past) = edits later ++ edits past := by
  induction later with
  | nil => rfl
  | cons e later ih => cases e <;> simp [edits, ih]

theorem store_register (r : WaitingRoom) (place : Nat) : (r.register place).store = r.store := by
  unfold register
  split <;> rfl

theorem store_after (past : List Event) : (after past).store = Store.after (edits past) := by
  induction past with
  | nil => rfl
  | cons e past ih =>
    cases e with
    | registered place => exact (store_register ..).trans ih
    | stored e => simp [after, step, edits, Store.after, ih]
    | forgot | timeoutSet | rejectsSet | passed | called | cancelled | looked => exact ih

/-! ## Records -/

/-- What is kept about a virtual document: the highest version that was requested under the record,
and a number that is never given out again. -/
structure Records (y : Synchronizer) (url : Url) (versions : List Int) : Prop where
  absent : y.records.get? url = none → versions = []
  highest : ∀ r, y.records.get? url = some r →
    r.latest ∈ versions ∧ (∀ v ∈ versions, v ≤ r.latest) ∧ r.number < y.nextNumber

theorem get?_request_ne (y : Synchronizer) {url k : Url} (version : Int) (h : url ≠ k) :
    (y.request url version).1.records.get? k = y.records.get? k := by
  unfold Synchronizer.request
  split
  · simp [Table.get?_set, h]
  · simp [Table.get?_set, h]

theorem get?_request_of_some {y : Synchronizer} {url : Url} {r : RequestRecord}
    (h : y.records.get? url = some r) (version : Int) :
    (y.request url version).1.records.get? url = some { r with latest := max r.latest version } ∧
      (y.request url version).2 = r.number ∧
      (y.request url version).1.nextNumber = y.nextNumber := by
  simp [Synchronizer.request, h, Table.get?_set]

theorem get?_request_of_none {y : Synchronizer} {url : Url}
    (h : y.records.get? url = none) (version : Int) :
    (y.request url version).1.records.get? url = some ⟨y.nextNumber, version⟩ ∧
      (y.request url version).2 = y.nextNumber ∧
      (y.request url version).1.nextNumber = y.nextNumber + 1 := by
  simp [Synchronizer.request, h, Table.get?_set]

theorem nextNumber_request (y : Synchronizer) (url : Url) (version : Int) :
    y.nextNumber ≤ (y.request url version).1.nextNumber := by
  unfold Synchronizer.request
  split
  · exact Nat.le_refl _
  · exact Nat.le_succ _

theorem Records.request {y : Synchronizer} {url : Url} {versions : List Int}
    (h : Records y url versions) (version : Int) :
    Records (y.request url version).1 url (version :: versions) := by
  cases hr : y.records.get? url with
  | none =>
    obtain ⟨found, -, next⟩ := get?_request_of_none hr version
    refine ⟨fun hn => ?_, fun r hr' => ?_⟩
    · simp [found] at hn
    · rw [found] at hr'
      cases hr'
      rw [h.absent hr, next]
      simp
  | some r =>
    obtain ⟨found, -, next⟩ := get?_request_of_some hr version
    obtain ⟨mem, highest, below⟩ := h.highest r hr
    refine ⟨fun hn => ?_, fun r' hr' => ?_⟩
    · simp [found] at hn
    · rw [found] at hr'
      cases hr'
      refine ⟨?_, fun v hv => ?_, by rw [next]; exact below⟩
      · rcases Int.le_total r.latest version with hle | hle
        · simp [Int.max_eq_right hle]
        · simp [Int.max_eq_left hle, mem]
      · rcases List.mem_cons.1 hv with rfl | hv
        · exact Int.le_max_right ..
        · exact Int.le_trans (highest v hv) (Int.le_max_left ..)

theorem Records.request_ne {y : Synchronizer} {url k : Url} {versions : List Int}
    (h : Records y k versions) (version : Int) (hne : url ≠ k) :
    Records (y.request url version).1 k versions := by
  refine ⟨fun hn => h.absent ?_, fun r hr => ?_⟩
  · rwa [get?_request_ne y version hne] at hn
  · rw [get?_request_ne y version hne] at hr
    obtain ⟨mem, highest, below⟩ := h.highest r hr
    exact ⟨mem, highest, Nat.lt_of_lt_of_le below (nextNumber_request ..)⟩

theorem get?_forget (y : Synchronizer) (host k : Url) :
    (y.forget host).records.get? k = if k ∈ Store.names host then none else y.records.get? k :=
  Table.get?_foldl_erase VirtualUri.url ..

theorem Records.forget {y : Synchronizer} {k : Url} {versions : List Int}
    (h : Records y k versions) (host : Url) :
    Records (y.forget host) k (if k ∈ Store.names host then [] else versions) := by
  by_cases named : k ∈ Store.names host
  · rw [if_pos named]
    refine ⟨fun _ => rfl, fun r hr => ?_⟩
    rw [get?_forget, if_pos named] at hr
    cases hr
  · rw [if_neg named]
    refine ⟨fun hn => h.absent ?_, fun r hr => h.highest r ?_⟩
    · rwa [get?_forget, if_neg named] at hn
    · rwa [get?_forget, if_neg named] at hr

/-! ## Registering -/

/-- What a call waits for if it registers in this room and follows this opening. -/
def waitOf (r : WaitingRoom) (w : Waiter) (opening : Nat) : SyncWait where
  expected := w.expected
  opening := opening
  language := w.document.language
  url := w.document.url
  record := (r.synchronizer.request w.document.url w.expected).2
  rejects := r.synchronizer.rejects
  deadline := r.now + r.synchronizer.timeout

theorem begin_of_subscribed (r : WaitingRoom) {w : Waiter} {store : Store} {opening : Nat}
    (stale : w.document.isSynchronizedWith w.expected = false)
    (hs : store.subscribe? w.document.host w.document.language = some opening) :
    r.synchronizer.begin store r.now w.expected w.document =
      ((r.synchronizer.request w.document.url w.expected).1, .inr (r.waitOf w opening)) := by
  simp [Synchronizer.begin, stale, hs, waitOf]

/-- A call that does not wait leaves the records alone. -/
theorem begin_of_not_waits (r : WaitingRoom) {w : Waiter} {store : Store} (h : ¬ w.Waits store) :
    r.synchronizer.begin store r.now w.expected w.document =
      (r.synchronizer,
        .inl (if w.document.isSynchronizedWith w.expected then some w.document else none)) := by
  unfold Synchronizer.begin
  by_cases stale : w.document.isSynchronizedWith w.expected = false
  · have gone : store.subscribe? w.document.host w.document.language = none := by
      rw [← Option.not_isSome_iff_eq_none]
      exact fun hs => h ⟨stale, hs⟩
    simp [stale, gone]
  · simp [stale]

/-- The only thing that registering can do to the synchronizer. -/
theorem synchronizer_register (r : WaitingRoom) (place : Nat) :
    (r.register place).synchronizer =
      match r.caller? place with
      | none => r.synchronizer
      | some (w, store) =>
        if w.Waits store then (r.synchronizer.request w.document.url w.expected).1
        else r.synchronizer := by
  unfold register
  split
  · rfl
  · next w store _ =>
    by_cases waits : w.Waits store
    · obtain ⟨opening, hs⟩ := Option.isSome_iff_exists.1 waits.2
      simp only [begin_of_subscribed r waits.1 hs, if_pos waits]
    · simp only [begin_of_not_waits r waits, if_neg waits]

theorem records_after (past : List Event) (url : Url) :
    Records (after past).synchronizer url (requested url past) := by
  induction past with
  | nil => exact ⟨fun _ => rfl, nofun⟩
  | cons e past ih =>
    cases e with
    | registered place =>
      simp only [after, step, synchronizer_register, requested]
      split
      · exact ih
      · next w store _ =>
        by_cases waits : w.Waits store
        · by_cases same : w.document.url = url
          · simp only [same, waits, and_self, if_true]
            exact ih.request w.expected
          · simp only [same, waits, false_and, if_true, if_false]
            exact ih.request_ne w.expected same
        · simp only [waits, and_false, if_false]
          exact ih
    | forgot host => exact ih.forget host
    | timeoutSet | rejectsSet => exact ⟨ih.absent, ih.highest⟩
    | stored | passed | called | cancelled | looked => exact ih

/-! ## Superseded calls -/

/-- The number of the record of a virtual document. -/
def record? (r : WaitingRoom) (url : Url) : Option Nat :=
  (r.synchronizer.records.get? url).map (·.number)

theorem nextNumber_step (r : WaitingRoom) (e : Event) :
    r.synchronizer.nextNumber ≤ (r.step e).synchronizer.nextNumber := by
  cases e with
  | registered place =>
    simp only [step, synchronizer_register]
    split
    · exact Nat.le_refl _
    · split
      · exact nextNumber_request ..
      · exact Nat.le_refl _
  | stored | forgot | timeoutSet | rejectsSet | passed | called | cancelled | looked =>
    exact Nat.le_refl _

/-- Unless it is forgotten, the record of a virtual document stays, and a new one gets a new
number. -/
theorem record?_step (r : WaitingRoom) {e : Event} {url : Url}
    (he : ∀ host, e = .forgot host → url ∉ Store.names host) :
    (r.step e).record? url = r.record? url ∨
      r.record? url = none ∧ (r.step e).record? url = some r.synchronizer.nextNumber := by
  cases e with
  | registered place =>
    simp only [record?, step, synchronizer_register]
    split
    · exact .inl rfl
    · next w store _ =>
      split
      · by_cases same : w.document.url = url
        · subst same
          cases hr : r.synchronizer.records.get? w.document.url with
          | none => exact .inr ⟨rfl, by simp [(get?_request_of_none hr w.expected).1]⟩
          | some found => exact .inl (by simp [(get?_request_of_some hr w.expected).1])
        · exact .inl (by simp only [get?_request_ne _ w.expected same])
      · exact .inl rfl
  | forgot host =>
    refine .inl ?_
    simp only [record?, step, get?_forget, if_neg (he host rfl)]
  | stored | timeoutSet | rejectsSet | passed | called | cancelled | looked => exact .inl rfl

theorem record?_forgot (r : WaitingRoom) {host url : Url} (h : url ∈ Store.names host) :
    (r.step (.forgot host)).record? url = none := by
  simp only [record?, step, get?_forget, if_pos h, Option.map_none]

/-- A record goes on until it is forgotten; after that its number is not seen again. -/
theorem record?_during {past : List Event} {url : Url} {number : Nat}
    (h : (after past).record? url = some number) (during : List Event) :
    number < (after (during ++ past)).synchronizer.nextNumber ∧
      (¬ ForgottenIn url during → (after (during ++ past)).record? url = some number) ∧
      (ForgottenIn url during →
        ∀ n, (after (during ++ past)).record? url = some n → number < n) := by
  induction during with
  | nil =>
    obtain ⟨r, hr, rfl⟩ := Option.map_eq_some_iff.1 h
    refine ⟨((records_after past url).highest r hr).2.2, fun _ => h, ?_⟩
    rintro ⟨_, hm, -⟩
    cases hm
  | cons e during ih =>
    obtain ⟨below, kept, lost⟩ := ih
    have next := nextNumber_step (after (during ++ past)) e
    -- a record that is begun after the old one was forgotten takes the next number
    refine ⟨Nat.lt_of_lt_of_le below next, fun hf => ?_, fun hf n hn => ?_⟩
    · have here : ∀ host, e = .forgot host → url ∉ Store.names host := by
        rintro host rfl named
        exact hf ⟨host, List.mem_cons_self, named⟩
      have before : ¬ ForgottenIn url during := by
        rintro ⟨host, hm, named⟩
        exact hf ⟨host, List.mem_cons_of_mem _ hm, named⟩
      rw [List.cons_append, after]
      rcases record?_step (after (during ++ past)) here with same | ⟨none, -⟩
      · rw [same, kept before]
      · rw [kept before] at none
        cases none
    · rw [List.cons_append, after] at hn
      by_cases here : ∃ host, e = .forgot host ∧ url ∈ Store.names host
      · obtain ⟨host, rfl, named⟩ := here
        rw [record?_forgot _ named] at hn
        cases hn
      · have here : ∀ host, e = .forgot host → url ∉ Store.names host :=
          fun host he named => here ⟨host, he, named⟩
        have before : ForgottenIn url during := by
          obtain ⟨host, hm, named⟩ := hf
          rcases List.mem_cons.1 hm with he | hm
          · exact absurd named (here host he.symm)
          · exact ⟨host, hm, named⟩
        rcases record?_step (after (during ++ past)) here with same | ⟨-, new⟩
        · rw [same] at hn
          exact lost before n hn
        · rw [new] at hn
          cases hn
          exact below

/-- The record of a call that registers and waits. -/
theorem record?_registered {r : WaitingRoom} {place : Nat} {w : Waiter} {store : Store}
    (h : r.caller? place = some (w, store)) (waits : w.Waits store) (opening : Nat) :
    (r.step (.registered place)).record? w.document.url = some (r.waitOf w opening).record := by
  simp only [record?, step, synchronizer_register, h, if_pos waits, waitOf]
  cases hr : r.synchronizer.records.get? w.document.url with
  | none =>
    obtain ⟨found, number, -⟩ := get?_request_of_none hr w.expected
    simp [found, number]
  | some found =>
    obtain ⟨found, number, -⟩ := get?_request_of_some hr w.expected
    simp [found, number]

/-- A call is superseded if its record was forgotten since it registered, or a newer version than it
expects has been registered since the record was begun. -/
theorem supersedes_iff {start : List Event} {place : Nat} {w : Waiter} {store : Store}
    (h : (after start).caller? place = some (w, store)) (waits : w.Waits store) (opening : Nat)
    (during : List Event) :
    (after (during ++ .registered place :: start)).synchronizer.supersedes
        ((after start).waitOf w opening) = true ↔
      ForgottenIn w.document.url during ∨
        ∃ v ∈ requested w.document.url (during ++ .registered place :: start), w.expected < v := by
  have registered : (after (.registered place :: start)).record? w.document.url =
      some ((after start).waitOf w opening).record := record?_registered h waits opening
  obtain ⟨-, kept, lost⟩ := record?_during registered during
  have records := records_after (during ++ .registered place :: start) w.document.url
  generalize after (during ++ .registered place :: start) = room at kept lost records ⊢
  have url : ((after start).waitOf w opening).url = w.document.url := rfl
  have version : ((after start).waitOf w opening).expected = w.expected := rfl
  unfold Synchronizer.supersedes
  rw [url, version]
  by_cases hf : ForgottenIn w.document.url during
  · refine iff_of_true ?_ (.inl hf)
    split
    · next r hr =>
      have newer := lost hf r.number (by rw [record?, hr]; rfl)
      simp only [Bool.or_eq_true, bne_iff_ne]
      exact .inl (by omega)
    · rfl
  · obtain ⟨r, hr, number⟩ := Option.map_eq_some_iff.1 (kept hf)
    obtain ⟨mem, highest, -⟩ := records.highest r hr
    rw [hr]
    simp only [number, bne_self_eq_false, Bool.false_or, decide_eq_true_eq, hf, false_or]
    refine ⟨fun newer => ⟨r.latest, mem, newer⟩, ?_⟩
    rintro ⟨v, hv, newer⟩
    exact Int.lt_of_lt_of_le newer (highest v hv)

end WaitingRoom

end PolyglotLsp
