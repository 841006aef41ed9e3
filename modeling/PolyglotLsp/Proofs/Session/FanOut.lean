import PolyglotLsp.Proofs.Server.Registry
import PolyglotLsp.Proofs.Session.Listening
import PolyglotLsp.Proofs.Session.Turns

/-!
# Requests to several servers

A request goes out to several servers, to each of them when the task for it has its turn, and is
looked at from time to time. What a turn finds depends on nothing but the clock and the server that
is asked (`FanOut.turned`), so that the replies arrive in an order that the servers, the clock and
the turns decide (`World.arrivals`). Each server is waiting to be asked, at work, or has replied
once (`FanOut.Accounts`), and each reply is one of the ways in which the server's work can end
(`World.Possible`). When every task has had its turn and then the time is up, all servers have
replied, and there is a verdict (`FanOut.exists_verdict`).
-/

namespace PolyglotLsp

variable {σ ρ : Type} {c : Collaborators σ} {shape : Shape}

/-- How long a server's work takes: each note waits for the one before it, and the end for all. -/
def ServerWork.duration (work : ServerWork) : Nat :=
  work.notes.foldl (fun time n => time + n.delay) 0 + work.delay

/-- The ways in which a server's work on a request can end for those who wait for it; the work may
be slow, so that it does not end in time. -/
inductive ServerOutcome.Ends (shape : Shape) (server method : String) (timeout : Nat)
    (slow : Prop) : ServerOutcome → Reply shape.Val → Prop
  | answer {json : Json} {value : shape.Val} (said : json ≠ .null)
      (reads : shape.decode? json = some value) :
      Ends shape server method timeout slow (.answer json) (.answer value)
  | null : Ends shape server method timeout slow (.answer .null) .nothing
  | unreadable {json : Json} (said : json ≠ .null) (reads : shape.decode? json = none) :
      Ends shape server method timeout slow (.answer json)
        (.failed (.invalidResponse server method "the answer has another shape"))
  | transport {message : String} :
      Ends shape server method timeout slow (.fail message)
        (.failed (.transport server method message))
  | timeout {outcome : ServerOutcome} (late : outcome = .hang ∨ slow) :
      Ends shape server method timeout slow outcome (.failed (.timeout server method timeout))
  | died : Ends shape server method timeout slow .die .died

/-! ## What a look finds -/

namespace Flight

/-- A flight without the notes that are due. -/
def heard (now : Nat) (f : Flight) : Flight := { f with notes := f.notes.dropWhile (·.1 ≤ now) }

/-- The reply that a look at a flight finds, and since when it is there. -/
def landing? (shape : Shape) (now : Nat) (f : Flight) : Option (Landing shape.Val) :=
  World.landing shape now (f.heard now) (f.heard now).notes.isEmpty

/-- A flight whose last note comes no later than its end. -/
def Paced (f : Flight) : Prop := ∀ n ∈ f.notes, n.1 ≤ f.finish

/-- How a flight ends for those who wait for it. -/
def Ends (shape : Shape) (f : Flight) (reply : Reply shape.Val) : Prop :=
  f.outcome.Ends shape f.server f.method f.timeout (f.deadline < f.finish) reply

variable {f : Flight} {now : Nat} {l : Landing shape.Val}

theorem Paced.heard (h : f.Paced) (now : Nat) : (f.heard now).Paced :=
  fun n hn => h n ((List.dropWhile_sublist _).mem hn)

/-- As long as notes are to come, the end is to come as well. -/
theorem Paced.lt_finish (h : f.Paced)
    (going : ¬ ((f.heard now).notes.isEmpty && (f.heard now).finish ≤ now) = true) :
    now < f.finish := by
  by_contra ended
  have finish : (f.heard now).finish ≤ now := Nat.not_lt.1 ended
  have due : (f.heard now).notes = [] :=
    List.dropWhile_eq_nil_iff.2 fun n hn => decide_eq_true ((h n hn).trans finish)
  exact going (by simp [due, finish])

theorem ends_reply (server method : String) (timeout : Nat) (slow : Prop) (json : Json) :
    (ServerOutcome.answer json).Ends shape server method timeout slow
      (shape.reply server method json) := by
  unfold Shape.reply
  split
  · exact .null
  · next said =>
    split
    · next reads => exact .answer said reads
    · next reads => exact .unreadable said reads

theorem server_of_landing? (h : f.landing? shape now = some l) : l.server = f.server := by
  have late (h : (if f.deadline ≤ now then
        some (Landing.mk f.deadline f.server (.failed (.timeout f.server f.method f.timeout)))
      else none) = some l) : l.server = f.server := by
    rw [Option.ite_none_right_eq_some, Option.some.injEq] at h
    rw [← h.2]
  rw [landing?, World.landing] at h
  split at h
  · split at h
    · cases h
      rfl
    · cases h
      rfl
    · cases h
      rfl
    · exact late h
  · exact late h

theorem ends_of_landing? (paced : f.Paced) (h : f.landing? shape now = some l) :
    f.Ends shape l.reply := by
  -- The time can be up for a server that never ends, and for one that has not ended yet.
  have late (slow : f.deadline ≤ now → f.outcome = .hang ∨ f.deadline < f.finish)
      (h : (if f.deadline ≤ now then
          some (Landing.mk f.deadline f.server (.failed (.timeout f.server f.method f.timeout)))
        else none) = some l) : f.Ends shape l.reply := by
    rw [Option.ite_none_right_eq_some, Option.some.injEq] at h
    obtain ⟨up, rfl⟩ := h
    exact .timeout (slow up)
  rw [landing?, World.landing] at h
  by_cases ended : ((f.heard now).notes.isEmpty && (f.heard now).finish ≤ now) = true
  · rw [if_pos ended] at h
    have same : (f.heard now).outcome = f.outcome := rfl
    rw [same] at h
    cases outcome : f.outcome with
    | answer json =>
      rw [outcome] at h
      cases h
      rw [Ends, outcome]
      exact ends_reply ..
    | fail message =>
      rw [outcome] at h
      cases h
      rw [Ends, outcome]
      exact .transport
    | die =>
      rw [outcome] at h
      cases h
      rw [Ends, outcome]
      exact .died
    | hang =>
      rw [outcome] at h
      exact late (fun _ => .inl outcome) h
  · rw [if_neg ended] at h
    exact late (fun up => .inr (Nat.lt_of_le_of_lt up (paced.lt_finish ended))) h

theorem landing?_of_late (late : f.deadline ≤ now) : (f.landing? shape now).isSome = true := by
  have due : (f.heard now).deadline ≤ now := late
  simp only [landing?, World.landing, if_pos due]
  split
  · split <;> rfl
  · rfl

end Flight

namespace World

/-- Replies in the order of their moments are the same replies. -/
theorem inOrder_perm {α : Type} (landings : List (Landing α)) :
    (inOrder landings).Perm (landings.map fun l => (l.server, l.reply)) :=
  (List.mergeSort_perm landings _).map _

end World

namespace FanOut

/-- What becomes of a fan-out by a look. -/
def look (shape : Shape) (now : Nat) (F : FanOut shape.Val) : FanOut shape.Val :=
  { F with
    flights := (F.flights.filter fun f => (f.landing? shape now).isNone).map (·.heard now)
    replies := F.replies ++ World.inOrder (F.flights.filterMap (·.landing? shape now)) }

end FanOut

namespace World

theorem fly_snd (flights : List Flight) (w : World σ) :
    (fly shape w flights).2 =
      ((flights.filter fun f => (f.landing? shape w.now).isNone).map (·.heard w.now),
        flights.filterMap (·.landing? shape w.now)) := by
  induction flights generalizing w with
  | nil => rfl
  | cons f rest ih =>
    have now := (listens_takeNotes f.server f.notes w).now
    have found : landing shape (takeNotes f.server w f.notes).1.now
        { f with notes := (takeNotes f.server w f.notes).2 }
        (takeNotes f.server w f.notes).2.isEmpty = f.landing? shape w.now := by
      rw [now, notes_takeNotes]
      rfl
    have heard : { f with notes := (takeNotes f.server w f.notes).2 } = f.heard w.now := by
      rw [notes_takeNotes]
      rfl
    have later := ih (takeNotes f.server w f.notes).1
    rw [now] at later
    simp only [fly, found]
    cases landed : f.landing? shape w.now with
    | some l => simp [later, landed]
    | none => simp [later, landed, heard]

/-- What a look finds depends on the clock only. -/
theorem flyAll_snd (w : World σ) (F : FanOut shape.Val) :
    (flyAll shape w F).2 = F.look shape w.now := by
  rw [flyAll, FanOut.look]
  simp only [fly_snd]

/-- The task for a server has its turn once: the server is no longer waiting to be asked, and a
flight is on its way to it. -/
theorem depart_cases {α : Type} (c : Collaborators σ) (method : String) (params : Json)
    (w : World σ) (server : String) (F : FanOut α) :
    (F.grounded.find? (·.name = server) = none ∧ w.depart c method params server F = (w, F)) ∨
    ∃ before s after, F.grounded = before ++ s :: after ∧ s.name = server ∧
      F.grounded.find? (·.name = server) = some s ∧
      w.depart c method params server F = ((w.launch c s method params F.timeout).1,
        { F with
          grounded := before ++ after
          flights := F.flights ++ [(w.launch c s method params F.timeout).2] }) := by
  unfold depart
  cases found : F.grounded.find? (·.name = server) with
  | none => exact .inl ⟨rfl, rfl⟩
  | some s =>
    obtain ⟨named, before, after, split, others⟩ := List.find?_eq_some_iff_append.1 found
    have named : s.name = server := of_decide_eq_true named
    have erased : F.grounded.eraseP (·.name = server) = before ++ after := by
      rw [split, List.eraseP_append_right _ (by simpa using others)]
      simp [named]
    exact .inr ⟨before, s, after, split, named, rfl, by rw [erased]⟩

end World

/-! ## What becomes of a fan-out -/

namespace FanOut

variable {method : String} {params : Json} {verdict : FanOut shape.Val → Option ρ}
  {F : FanOut shape.Val} {turns : List (Turn × World σ)}

/-- What becomes of a fan-out in a turn. -/
def turned (c : Collaborators σ) (method : String) (params : Json) (F : FanOut shape.Val) :
    Turn × World σ → FanOut shape.Val
  | (.own, w) => F.look shape w.now
  | (.release server, w) => (w.depart c method params server F).2

/-- What becomes of a fan-out in several turns. Nothing does once there is a verdict on it. -/
def followed (c : Collaborators σ) (method : String) (params : Json)
    (verdict : FanOut shape.Val → Option ρ) : FanOut shape.Val → List (Turn × World σ) →
      FanOut shape.Val
  | F, [] => F
  | F, t :: turns =>
    if (verdict F).isSome then F
    else followed c method params verdict (F.turned c method params t) turns

theorem followed_of_decided (decided : (verdict F).isSome = true)
    (turns : List (Turn × World σ)) : F.followed c method params verdict turns = F := by
  cases turns with
  | nil => rfl
  | cons t turns => rw [followed, if_pos decided]

/-- A fan-out takes its turns until there is a verdict on it, and all of them without one. -/
theorem followed_cases (c : Collaborators σ) (method : String) (params : Json)
    (verdict : FanOut shape.Val → Option ρ) (F : FanOut shape.Val)
    (turns : List (Turn × World σ)) :
    ∃ taken left, turns = taken ++ left ∧
      F.followed c method params verdict turns = taken.foldl (turned c method params) F ∧
      ((verdict (F.followed c method params verdict turns)).isSome = true ∨ left = []) := by
  induction turns generalizing F with
  | nil => exact ⟨[], [], rfl, rfl, .inr rfl⟩
  | cons t turns ih =>
    by_cases decided : (verdict F).isSome = true
    · refine ⟨[], t :: turns, rfl, ?_, .inl ?_⟩
      · exact followed_of_decided decided _
      · rwa [followed_of_decided decided]
    · obtain ⟨taken, left, split, same, settled⟩ := ih (F.turned c method params t)
      rw [followed, if_neg decided]
      exact ⟨t :: taken, left, by rw [split, List.cons_append], same, settled⟩

/-- What is kept in every turn is kept in all turns. -/
theorem foldl_turned {P : FanOut shape.Val → Prop} (first : P F)
    (step : ∀ F, P F → ∀ t ∈ turns, P (F.turned c method params t)) :
    P (turns.foldl (turned c method params) F) :=
  List.foldlRecOn turns _ first step

/-- What is kept in every turn is kept as long as the fan-out is followed. -/
theorem followed_induct {P : FanOut shape.Val → Prop} (first : P F)
    (step : ∀ F, P F → ∀ t, P (F.turned c method params t)) :
    P (F.followed c method params verdict turns) := by
  obtain ⟨taken, -, -, same, -⟩ := followed_cases c method params verdict F turns
  rw [same]
  exact foldl_turned first fun F h t _ => step F h t

theorem look_of_flights_nil {now : Nat} (h : F.flights = []) : F.look shape now = F := by
  obtain ⟨grounded, flights, replies, timeout⟩ := F
  cases h
  simp [look, World.inOrder]

theorem exists_of_mem_look {now : Nat} {f : Flight} (h : f ∈ (F.look shape now).flights) :
    ∃ f₀ ∈ F.flights, f = f₀.heard now := by
  obtain ⟨f₀, h₀, rfl⟩ := List.mem_map.1 h
  exact ⟨f₀, (List.mem_filter.1 h₀).1, rfl⟩

theorem timeout_turned (F : FanOut shape.Val) (t : Turn × World σ) :
    (F.turned c method params t).timeout = F.timeout := by
  obtain ⟨turn, w⟩ := t
  cases turn with
  | own => rfl
  | release server =>
    rcases w.depart_cases c method params server F with ⟨-, same⟩ | ⟨_, _, _, -, -, -, same⟩
    · rw [turned, same]
    · rw [turned, same]

theorem grounded_turned (F : FanOut shape.Val) (t : Turn × World σ) :
    (F.turned c method params t).grounded.Sublist F.grounded := by
  obtain ⟨turn, w⟩ := t
  cases turn with
  | own => exact .refl _
  | release server =>
    rcases w.depart_cases c method params server F with ⟨-, same⟩ | ⟨_, s, _, split, -, -, same⟩
    · rw [turned, same]
    · rw [turned, same, split]
      exact (List.sublist_cons_self ..).append_left _

/-! ### Every server is accounted for -/

/-- A fan-out accounts for the servers of these names: each is waiting to be asked, it is at work on
a flight as they go out to servers, or it has replied, with one of the ways in which such a flight
can end. -/
structure Accounts (c : Collaborators σ) (method : String) (params : Json)
    (Launched : Flight → Prop) (names : List String) (F : FanOut shape.Val) : Prop where
  names : (F.replies.map (·.1) ++ F.flights.map (·.server) ++ F.grounded.map (·.name)).Perm names
  departs : ∀ s ∈ F.grounded, ∀ w : World σ,
    (w.launch c s method params F.timeout).2.Paced ∧
      Launched (w.launch c s method params F.timeout).2
  aloft : ∀ f ∈ F.flights, f.Paced ∧ ∃ f₀, Launched f₀ ∧ f = { f₀ with notes := f.notes }
  ends : ∀ a ∈ F.replies, ∃ f, Launched f ∧ a.1 = f.server ∧ f.Ends shape a.2

variable {Launched : Flight → Prop} {names : List String} {now : Nat}

/-- At first all servers are waiting to be asked. -/
theorem accounts_new {servers : List Server} {timeout : Nat}
    (departs : ∀ s ∈ servers, ∀ w : World σ,
      (w.launch c s method params timeout).2.Paced ∧
        Launched (w.launch c s method params timeout).2) :
    Accounts c method params Launched (servers.map (·.name))
      (⟨servers, [], [], timeout⟩ : FanOut shape.Val) where
  names := .refl _
  departs := departs
  aloft _ hf := absurd hf List.not_mem_nil
  ends _ ha := absurd ha List.not_mem_nil

theorem names_landed (flights : List Flight) :
    ((World.inOrder (flights.filterMap (·.landing? shape now))).map (·.1) ++
      ((flights.filter fun f => (f.landing? shape now).isNone).map (·.heard now)).map
        (·.server)).Perm (flights.map (·.server)) := by
  have landed (ls : List (Landing shape.Val)) :
      ((World.inOrder ls).map (·.1)).Perm (ls.map (·.server)) := by
    have same := (World.inOrder_perm ls).map (·.1)
    rwa [List.map_map] at same
  refine ((landed _).append_right _).trans ?_
  induction flights with
  | nil => exact .refl _
  | cons f rest ih =>
    cases found : f.landing? shape now with
    | some l =>
      simp only [List.filterMap_cons, List.filter_cons, found, Option.isNone_some,
        Bool.false_eq_true, if_false, List.map_cons, List.cons_append,
        Flight.server_of_landing? found]
      exact ih.cons f.server
    | none =>
      simp only [List.filterMap_cons, List.filter_cons, found, Option.isNone_none, if_true,
        List.map_cons]
      exact List.perm_middle.trans (ih.cons f.server)

theorem Accounts.look (h : F.Accounts c method params Launched names) (now : Nat) :
    (F.look shape now).Accounts c method params Launched names := by
  refine ⟨?_, h.departs, fun f hf => ?_, fun a ha => ?_⟩
  · simp only [FanOut.look, List.map_append, List.append_assoc]
    rw [← List.append_assoc (List.map _ (World.inOrder _))]
    refine (((names_landed F.flights).append_right _).append_left _).trans ?_
    rw [← List.append_assoc]
    exact h.names
  · obtain ⟨f₀, h₀, rfl⟩ := exists_of_mem_look hf
    obtain ⟨paced, f₁, h₁, same⟩ := h.aloft f₀ h₀
    refine ⟨paced.heard now, f₁, h₁, ?_⟩
    rw [same]
    rfl
  · rcases List.mem_append.1 ha with ha | ha
    · exact h.ends a ha
    · obtain ⟨l, hl, rfl⟩ := List.mem_map.1 ((World.inOrder_perm _).mem_iff.1 ha)
      obtain ⟨f, hf, found⟩ := List.mem_filterMap.1 hl
      obtain ⟨paced, f₀, h₀, same⟩ := h.aloft f hf
      have ended := Flight.ends_of_landing? paced found
      have named := Flight.server_of_landing? found
      rw [same] at ended named
      exact ⟨f₀, h₀, named, ended⟩

theorem Accounts.depart (h : F.Accounts c method params Launched names) (w : World σ)
    (server : String) :
    (w.depart c method params server F).2.Accounts c method params Launched names := by
  rcases w.depart_cases c method params server F with
    ⟨-, same⟩ | ⟨before, s, after, split, named, -, same⟩
  · rw [same]
    exact h
  · rw [same]
    obtain ⟨accounted, departs, aloft, ends⟩ := h
    rw [split] at accounted departs
    refine ⟨?_, fun s' hs => ?_, fun f hf => ?_, ends⟩
    · -- The server moves from those that wait to those at work.
      refine .trans ?_ accounted
      have moved : (w.launch c s method params F.timeout).2.server = s.name := rfl
      simp only [List.map_append, List.map_cons, List.map_nil, moved, List.append_assoc,
        List.singleton_append]
      exact .append_left _ (.append_left _ List.perm_middle.symm)
    · refine departs s' ?_
      rw [List.mem_append, List.mem_cons]
      exact (List.mem_append.1 hs).imp id .inr
    · rcases List.mem_append.1 hf with hf | hf
      · exact aloft f hf
      · obtain ⟨paced, launched⟩ := departs s (by simp) w
        rw [List.mem_singleton.1 hf]
        exact ⟨paced, _, launched, rfl⟩

theorem Accounts.followed (h : F.Accounts c method params Launched names)
    (verdict : FanOut shape.Val → Option ρ) (turns : List (Turn × World σ)) :
    (F.followed c method params verdict turns).Accounts c method params Launched names := by
  refine followed_induct h ?_
  rintro F h ⟨turn, w⟩
  cases turn with
  | own => exact h.look w.now
  | release server => exact h.depart w server

/-! ### Every server replies in the end -/

/-- Turns of which none is withheld forever: the task for each server has one, and once the time is
up for whatever was asked by then, the request itself has one. -/
def Fair (servers : List Server) (timeout : Nat) (turns : List (Turn × World σ)) : Prop :=
  ∃ early late, turns = early ++ late ∧
    (∀ s ∈ servers, ∃ w, (.release s.name, w) ∈ early) ∧
    ∃ w, (.own, w) ∈ late ∧ ∀ t ∈ early, t.2.now + timeout ≤ w.now

/-- A server whose task has had its turn is not waiting to be asked. -/
theorem name_ne_of_mem_turned {s : Server} {server : String} {w : World σ}
    (distinct : (F.grounded.map (·.name)).Nodup)
    (h : s ∈ (F.turned c method params (.release server, w)).grounded) : s.name ≠ server := by
  rw [turned] at h
  rcases w.depart_cases c method params server F with
    ⟨none, same⟩ | ⟨before, s', after, split, named, -, same⟩
  · rw [same] at h
    simpa using List.find?_eq_none.1 none s h
  · rw [same] at h
    rw [split, List.map_append, List.map_cons, List.nodup_middle, List.nodup_cons,
      ← List.map_append, named] at distinct
    rintro rfl
    exact distinct.1 (List.mem_map_of_mem h)

/-- The servers whose tasks have not had their turn are still waiting, and no others are. -/
theorem grounded_foldl (distinct : (F.grounded.map (·.name)).Nodup) {s : Server}
    (h : s ∈ (turns.foldl (turned c method params) F).grounded) :
    s ∈ F.grounded ∧ ∀ w, (.release s.name, w) ∉ turns := by
  induction turns generalizing F with
  | nil => exact ⟨h, fun _ => List.not_mem_nil⟩
  | cons t turns ih =>
    have fewer : (F.turned c method params t).grounded.Sublist F.grounded := F.grounded_turned t
    obtain ⟨mem, unasked⟩ := ih (distinct.sublist (fewer.map _)) h
    refine ⟨fewer.mem mem, fun w found => ?_⟩
    rcases List.mem_cons.1 found with rfl | found
    · exact name_ne_of_mem_turned distinct mem rfl
    · exact unasked w found

/-- Whoever is at work by then has until a moment. -/
def DueBy (moment : Nat) (F : FanOut shape.Val) : Prop := ∀ f ∈ F.flights, f.deadline ≤ moment

theorem DueBy.turned {moment : Nat} (h : F.DueBy moment) {t : Turn × World σ}
    (early : F.grounded = [] ∨ t.2.now + F.timeout ≤ moment) :
    (F.turned c method params t).DueBy moment := by
  obtain ⟨turn, w⟩ := t
  intro f hf
  cases turn with
  | own =>
    obtain ⟨f₀, h₀, rfl⟩ := exists_of_mem_look hf
    exact h f₀ h₀
  | release server =>
    rw [FanOut.turned] at hf
    rcases w.depart_cases c method params server F with
      ⟨-, same⟩ | ⟨before, s, after, split, -, -, same⟩
    · rw [same] at hf
      exact h f hf
    · rw [same] at hf
      rcases List.mem_append.1 hf with hf | hf
      · exact h f hf
      · have left : (w.launch c s method params F.timeout).2.deadline = w.now + F.timeout := by
          rw [← (World.listens_launch c w s method params F.timeout).now]
          rfl
        rw [List.mem_singleton.1 hf, left]
        refine early.resolve_left ?_
        rw [split]
        simp

/-- Once the time is up, whoever was at work has replied. -/
theorem flights_look (h : F.DueBy now) : (F.look shape now).flights = [] := by
  refine List.map_eq_nil_iff.2 (List.filter_eq_nil_iff.2 fun f hf => ?_)
  rw [Option.isNone_iff_eq_none, ← Option.not_isSome_iff_eq_none, not_not]
  exact Flight.landing?_of_late (h f hf)

theorem exhausted_iff : World.exhausted F = true ↔ F.grounded = [] ∧ F.flights = [] := by
  simp [World.exhausted]

theorem turned_of_exhausted (h : World.exhausted F = true) (t : Turn × World σ) :
    F.turned c method params t = F := by
  obtain ⟨grounded, flights⟩ := exhausted_iff.1 h
  obtain ⟨turn, w⟩ := t
  cases turn with
  | own => exact look_of_flights_nil flights
  | release server =>
    have none : F.grounded.find? (·.name = server) = none := by rw [grounded, List.find?_nil]
    rw [turned, World.depart]
    simp only [none]

theorem exhausted_of_fair {servers : List Server} {timeout : Nat}
    (distinct : (servers.map (·.name)).Nodup) (fair : Fair servers timeout turns) :
    World.exhausted (turns.foldl (turned c method params)
      (⟨servers, [], [], timeout⟩ : FanOut shape.Val)) = true := by
  obtain ⟨early, late, rfl, asked, w, own, bound⟩ := fair
  obtain ⟨before, after, rfl⟩ := List.append_of_mem own
  simp only [List.foldl_append, List.foldl_cons]
  -- Once every task has had its turn, nobody is waiting to be asked, and the deadlines are set.
  have begun : let F : FanOut shape.Val :=
        early.foldl (turned c method params) ⟨servers, [], [], timeout⟩
      F.grounded = [] ∧ F.DueBy w.now := by
    refine ⟨List.eq_nil_iff_forall_not_mem.2 fun s hs => ?_, ?_⟩
    · obtain ⟨mem, unasked⟩ := grounded_foldl distinct hs
      obtain ⟨w', released⟩ := asked s mem
      exact unasked w' released
    · refine (foldl_turned (P := fun F => F.timeout = timeout ∧ F.DueBy w.now)
        ⟨rfl, fun f hf => absurd hf List.not_mem_nil⟩
        fun F h t ht => ⟨(F.timeout_turned t).trans h.1, h.2.turned (.inr ?_)⟩).2
      rw [h.1]
      exact bound t ht
  extract_lets F at begun
  have waited : (before.foldl (turned c method params) F).grounded = [] ∧
      (before.foldl (turned c method params) F).DueBy w.now :=
    foldl_turned (P := fun F => F.grounded = [] ∧ F.DueBy w.now) begun fun F h t _ =>
      ⟨List.sublist_nil.1 (h.1 ▸ F.grounded_turned t), h.2.turned (.inl h.1)⟩
  refine foldl_turned (P := fun F => World.exhausted F = true) ?_ fun F h t _ => ?_
  · exact exhausted_iff.2 ⟨waited.1, flights_look waited.2⟩
  · rwa [turned_of_exhausted h]

/-- If no turn is withheld, there is a verdict in the end. -/
theorem exists_verdict (c : Collaborators σ) (method : String) (params : Json)
    {servers : List Server} {timeout : Nat} (sure : ∀ F, World.exhausted F = true → ∃ r, verdict F = some r)
    (distinct : (servers.map (·.name)).Nodup) (fair : Fair servers timeout turns) :
    ∃ r, verdict ((⟨servers, [], [], timeout⟩ : FanOut shape.Val).followed c method params verdict
      turns) = some r := by
  obtain ⟨taken, left, split, same, settled⟩ :=
    followed_cases c method params verdict ⟨servers, [], [], timeout⟩ turns
  rcases settled with decided | rfl
  · exact Option.isSome_iff_exists.1 decided
  · rw [List.append_nil] at split
    rw [same, ← split]
    exact sure _ (exhausted_of_fair distinct fair)

end FanOut

/-! ## What arrives -/

namespace World

/-- A request to several servers after these turns. -/
def fannedOut (c : Collaborators σ) (shape : Shape) (method : String) (params : Json)
    (verdict : FanOut shape.Val → Option ρ) (servers : List Server) (w : World σ)
    (turns : List (Turn × World σ)) : FanOut shape.Val :=
  FanOut.followed c method params verdict ⟨servers, [], [], w.core.requestTimeout⟩ turns

/-- The replies of the servers in the order of their arrival. -/
def arrivals (c : Collaborators σ) (shape : Shape) (method : String) (params : Json)
    (verdict : FanOut shape.Val → Option ρ) (servers : List Server) (w : World σ)
    (turns : List (Turn × World σ)) : Replies shape.Val :=
  (w.fannedOut c shape method params verdict servers turns).replies

/-- A reply that one of these servers may give: one of the ways in which its work can end. It fails
to reply in time only if its work has no end or takes longer than the time allowed. -/
def Possible (c : Collaborators σ) (shape : Shape) (method : String) (params : Json)
    (servers : List Server) (w : World σ) (a : String × Reply shape.Val) : Prop :=
  ∃ s ∈ servers, a.1 = s.name ∧ ∃ outside,
    let work := (c.request outside s.endpoint method params).2
    work.outcome.Ends shape s.name method w.core.requestTimeout
      (w.core.requestTimeout < work.duration) a.2

/-- Each of these servers has replied once. -/
structure Replied (c : Collaborators σ) (shape : Shape) (method : String) (params : Json)
    (servers : List Server) (w : World σ) (replies : Replies shape.Val) : Prop where
  names : (replies.map (·.1)).Perm (servers.map (·.name))
  ends : ∀ a ∈ replies, w.Possible c shape method params servers a

/-- A flight on which a request went out to a server. -/
structure Launched (c : Collaborators σ) (method : String) (params : Json) (timeout : Nat)
    (s : Server) (f : Flight) : Prop where
  work : ∃ outside start,
    let work := (c.request outside s.endpoint method params).2
    f.outcome = work.outcome ∧ f.finish = start + work.duration ∧ f.deadline = start + timeout
  server : f.server = s.name
  asked : f.method = method
  timeout : f.timeout = timeout

variable {method : String} {params : Json} {verdict : FanOut shape.Val → Option ρ}
  {servers : List Server} {w : World σ} {turns : List (Turn × World σ)}

/-! ### Flights -/

theorem foldl_delay (notes : List ServerNote) (start : Nat) :
    notes.foldl (fun time n => time + n.delay) start =
      start + notes.foldl (fun time n => time + n.delay) 0 := by
  induction notes generalizing start with
  | nil => rfl
  | cons n rest ih =>
    rw [List.foldl_cons, List.foldl_cons, ih, ih (0 + n.delay)]
    omega

theorem le_of_mem_schedule {notes : List ServerNote} {start : Nat} {n : Nat × ServerNote}
    (h : n ∈ schedule start notes) :
    n.1 ≤ notes.foldl (fun time n => time + n.delay) start := by
  induction notes generalizing start with
  | nil => cases h
  | cons note rest ih =>
    rw [List.foldl_cons]
    rcases List.mem_cons.1 h with rfl | h
    · rw [foldl_delay]
      exact Nat.le_add_right ..
    · exact ih h

section Launch

variable (c : Collaborators σ) (w : World σ) (s : Server) (method : String) (params : Json)
  (timeout : Nat)

theorem finish_launch : (w.launch c s method params timeout).2.finish =
    w.now + (c.request w.outside s.endpoint method params).2.duration := by
  rw [ServerWork.duration, ← Nat.add_assoc, ← foldl_delay]
  rfl

theorem deadline_launch :
    (w.launch c s method params timeout).2.deadline = w.now + timeout := by
  rw [← (listens_launch c w s method params timeout).now]
  rfl

theorem launched_launch :
    Launched c method params timeout s (w.launch c s method params timeout).2 :=
  ⟨⟨w.outside, w.now, rfl, w.finish_launch .., w.deadline_launch ..⟩, rfl, rfl, rfl⟩

theorem paced_launch : (w.launch c s method params timeout).2.Paced := by
  intro n hn
  rw [finish_launch, ServerWork.duration, ← Nat.add_assoc, ← foldl_delay]
  refine Nat.le_add_right_of_le (le_of_mem_schedule ?_)
  have left : (w.launch c s method params timeout).2.notes = _ := notes_takeNotes ..
  rw [left] at hn
  exact (List.dropWhile_sublist _).mem hn

end Launch

theorem Launched.ends {s : Server} {timeout : Nat} {f : Flight} {reply : Reply shape.Val}
    (h : Launched c method params timeout s f) (ends : f.Ends shape reply) :
    ∃ outside,
      let work := (c.request outside s.endpoint method params).2
      work.outcome.Ends shape s.name method timeout (timeout < work.duration) reply := by
  obtain ⟨⟨outside, start, outcome, finish, deadline⟩, server, asked, allowed⟩ := h
  rw [Flight.Ends, outcome, server, asked, allowed, deadline, finish,
    Nat.add_lt_add_iff_left] at ends
  exact ⟨outside, ends⟩

theorem accounts_fannedOut (c : Collaborators σ) (shape : Shape) (method : String) (params : Json)
    (verdict : FanOut shape.Val → Option ρ) (servers : List Server) (w : World σ)
    (turns : List (Turn × World σ)) :
    FanOut.Accounts c method params
      (fun f => ∃ s ∈ servers, Launched c method params w.core.requestTimeout s f)
      (servers.map (·.name)) (w.fannedOut c shape method params verdict servers turns) := by
  refine (FanOut.accounts_new fun s hs w' => ?_).followed verdict turns
  exact ⟨paced_launch c w' s method params _, s, hs, launched_launch c w' s method params _⟩

/-- Whatever has arrived is a reply that one of the servers may give. -/
theorem possible_of_mem_arrivals {a : String × Reply shape.Val}
    (h : a ∈ w.arrivals c shape method params verdict servers turns) :
    w.Possible c shape method params servers a := by
  obtain ⟨f, ⟨s, hs, launched⟩, named, ends⟩ :=
    (w.accounts_fannedOut c shape method params verdict servers turns).ends a h
  exact ⟨s, hs, named.trans launched.server, launched.ends ends⟩

/-- Once no server is waited for, each has replied. -/
theorem replied_of_exhausted
    (done : exhausted (w.fannedOut c shape method params verdict servers turns) = true) :
    w.Replied c shape method params servers
      (w.arrivals c shape method params verdict servers turns) := by
  refine ⟨?_, fun a ha => possible_of_mem_arrivals ha⟩
  have accounted := (w.accounts_fannedOut c shape method params verdict servers turns).names
  obtain ⟨grounded, flights⟩ := FanOut.exhausted_iff.1 done
  rw [grounded, flights, List.map_nil, List.map_nil, List.append_nil, List.append_nil] at accounted
  exact accounted

theorem Replied.distinct {replies : Replies shape.Val}
    (h : w.Replied c shape method params servers replies)
    (distinct : (servers.map (·.name)).Nodup) : (replies.map (·.1)).Nodup :=
  h.names.nodup_iff.2 distinct

end World

end PolyglotLsp
