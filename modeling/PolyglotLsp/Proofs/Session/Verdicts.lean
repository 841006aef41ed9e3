import Mathlib
import PolyglotLsp.Proofs.Server.Reply
import PolyglotLsp.Proofs.Session.FanOut
import PolyglotLsp.Scenario.Sample

/-!
# Verdicts on requests to several servers

What an operation answers that asks several servers is the verdict on the replies that have arrived,
as soon as there is one (`Judges.turns`): the first answer counts (`World.first_answer_counts`), or
all answers do (`World.all_answers_count`). When the first answer is there, tasks that have not had
their turn are dropped, and their servers are never asked (`World.servers_not_asked`). A request to
one server answers what becomes of this server's work (`World.reply_of_finished_ask`).
-/

namespace PolyglotLsp

variable {σ : Type} {c : Collaborators σ} {shape : Shape}

/-! ## Operations that wait for a verdict -/

section Judges

variable {o : Op} {keep : FanOut shape.Val → o.Pending}
  {verdict : FanOut shape.Val → Option o.Result} {method : String} {params : Json}
  {F : FanOut shape.Val}

/-- An operation whose fan-out is as given: it answers the verdict, or it waits. -/
def FanOut.progress (keep : FanOut shape.Val → o.Pending)
    (verdict : FanOut shape.Val → Option o.Result) (F : FanOut shape.Val) : o.Progress :=
  match verdict F with
  | some r => .answered r
  | none => .waiting (keep F)

theorem FanOut.progress_of_some {r : o.Result} (judged : verdict F = some r) :
    F.progress keep verdict = .answered r := by
  rw [progress, judged]

theorem FanOut.progress_of_none (undecided : verdict F = none) :
    F.progress keep verdict = .waiting (keep F) := by
  rw [progress, undecided]

theorem FanOut.progressed_eq_finished {r : o.Result} :
    World.progressed (F.progress keep verdict) = .finished r ↔ verdict F = some r := by
  constructor
  · intro finished
    have answered := World.eq_of_finished finished
    cases judged : verdict F with
    | some r' =>
      rw [FanOut.progress_of_some judged] at answered
      cases answered
      rfl
    | none =>
      rw [FanOut.progress_of_none judged] at answered
      cases answered
  · intro judged
    rw [FanOut.progress_of_some judged]
    rfl

/-- An operation keeps a fan-out, looks at it and lets its tasks have their turns, and it answers
the verdict on it as soon as there is one. A server that is asked does not bring one about. -/
structure Judges (c : Collaborators σ) (method : String) (params : Json)
    (keep : FanOut shape.Val → o.Pending) (verdict : FanOut shape.Val → Option o.Result) :
    Prop where
  resume : ∀ (w : World σ) (F : FanOut shape.Val),
    (w.resume false o (keep F)).2 = (F.look shape w.now).progress keep verdict
  release : ∀ (w : World σ) (server : String) (F : FanOut shape.Val),
    w.release c server o (keep F) =
      ((w.depart c method params server F).1, keep (w.depart c method params server F).2)
  undecided : ∀ (w : World σ) (server : String) (F : FanOut shape.Val),
    verdict F = none → verdict (w.depart c method params server F).2 = none

theorem Judges.turn (h : Judges c method params keep verdict) (undecided : verdict F = none)
    (turn : Turn) (w : World σ) :
    (w.turn c false o (keep F) turn).2 =
        (F.turned c method params (turn, w)).progress keep verdict ∧
      ∃ requests, w.Extends (w.turn c false o (keep F) turn).1 requests ∧
        (requests ++ (F.turned c method params (turn, w)).grounded.map
          fun s => (s.name, method, params)).Perm
            (F.grounded.map fun s => (s.name, method, params)) := by
  cases turn with
  | own => exact ⟨h.resume w F, [], w.resume_extends false o (keep F), .refl _⟩
  | release server =>
    have waits : (w.depart c method params server F).2.progress keep verdict = .waiting _ :=
      FanOut.progress_of_none (h.undecided w server F undecided)
    have sent := World.depart_extends c method params w server F
    simp only [World.turn, h.release, FanOut.turned, waits]
    refine ⟨trivial, _, sent, ?_⟩
    rcases w.depart_cases c method params server F with
      ⟨none, same⟩ | ⟨before, s, after, split, -, found, same⟩
    · rw [none, same]
      exact .refl _
    · rw [found, same, split]
      simp only [Option.toList_some, List.map_append, List.map_cons, List.map_nil,
        List.singleton_append]
      exact List.perm_middle.symm

/-- An operation answers the verdict on its fan-out as soon as there is one, and every server that
is not waiting to be asked has been asked once. -/
theorem Judges.turns (h : Judges c method params keep verdict) (F : FanOut shape.Val)
    (turns : List (Turn × World σ)) :
    ((World.progressed (F.progress keep verdict)).turns c turns).1 =
        World.progressed ((F.followed c method params verdict turns).progress keep verdict) ∧
      (((World.progressed (F.progress keep verdict)).turns c turns).2 ++
        (F.followed c method params verdict turns).grounded.map
          fun s => (s.name, method, params)).Perm
            (F.grounded.map fun s => (s.name, method, params)) := by
  induction turns generalizing F with
  | nil => exact ⟨rfl, .refl _⟩
  | cons t turns ih =>
    obtain ⟨turn, w⟩ := t
    cases judged : verdict F with
    | some r =>
      have decided : (verdict F).isSome = true := by rw [judged, Option.isSome_some]
      rw [FanOut.progress_of_some judged, FanOut.followed_of_decided decided,
        FanOut.progress_of_some judged, World.progressed, TaskState.turns_finished]
      exact ⟨rfl, .refl _⟩
    | none =>
      obtain ⟨next, requests, extended, sent⟩ := h.turn judged turn w
      obtain ⟨state, later⟩ := ih (F.turned c method params (turn, w))
      have goesOn : F.followed c method params verdict ((turn, w) :: turns) =
          (F.turned c method params (turn, w)).followed c method params verdict turns := by
        rw [FanOut.followed, judged]
        rfl
      rw [FanOut.progress_of_none judged, World.progressed, TaskState.turns_cons,
        World.poll_blocked, goesOn]
      dsimp only
      rw [next, extended.requestsUpTo, List.append_assoc]
      exact ⟨state, (later.append_left requests).trans sent⟩

/-- An operation that spawns a task for each of these servers answers the verdict on its fan-out, as
soon as there is one. -/
theorem Judges.turns_start (h : Judges c method params keep verdict) {w : World σ}
    {servers : List Server}
    (spawns : w.start c false o = (w,
      (⟨servers, [], [], w.core.requestTimeout⟩ : FanOut shape.Val).progress keep verdict))
    (turns : List (Turn × World σ)) :
    let run := (TaskState.ready (.call o)).turns c ((.own, w) :: turns)
    let F := w.fannedOut c shape method params verdict servers turns
    (∀ r, run.1 = .finished r ↔ verdict F = some r) ∧
      (run.2 ++ F.grounded.map fun s => (s.name, method, params)).Perm
        (servers.map fun s => (s.name, method, params)) := by
  intro run F
  have begun : run = (World.progressed ((⟨servers, [], [], w.core.requestTimeout⟩ :
      FanOut shape.Val).progress keep verdict)).turns c turns := by
    simp only [run, TaskState.turns_cons, World.poll_call, spawns, World.Extends.rfl.requestsUpTo,
      List.nil_append]
  obtain ⟨state, sent⟩ := h.turns ⟨servers, [], [], w.core.requestTimeout⟩ turns
  rw [begun, state]
  exact ⟨fun r => FanOut.progressed_eq_finished, sent⟩

end Judges

/-! ## Three verdicts -/

namespace World

variable {method : String} {params : Json} {contentTypes : List String} {contentType : String}
  {w : World σ} {F : FanOut shape.Val} {turns : List (Turn × World σ)}

theorem firstVerdict_eq_some {r : Except RouterError (Option (Tagged shape.Val))} :
    firstVerdict F = some r ↔
      (exhausted F = true ∨ F.replies.Answered) ∧ F.replies.first = r := by
  rw [firstVerdict, Option.ite_none_right_eq_some, Option.some.injEq, Bool.or_eq_true,
    Bool.not_eq_true', List.isEmpty_eq_false_iff, Replies.answers_ne_nil]

theorem firstVerdict_eq_none :
    firstVerdict F = none ↔ ¬ exhausted F = true ∧ ¬ F.replies.Answered := by
  rw [firstVerdict, ite_eq_right_iff, Bool.or_eq_true, Bool.not_eq_true',
    List.isEmpty_eq_false_iff, Replies.answers_ne_nil]
  simp

theorem allVerdict_eq_some {r : Except RouterError (List (Tagged shape.Val))} :
    allVerdict F = some r ↔ exhausted F = true ∧ F.replies.all = r := by
  rw [allVerdict, Option.ite_none_right_eq_some, Option.some.injEq]

theorem allVerdict_eq_none : allVerdict F = none ↔ ¬ exhausted F = true := by
  rw [allVerdict, ite_eq_right_iff]
  simp

/-- A server that is asked does not end a request to several servers. -/
theorem exhausted_depart (w : World σ) (server : String) (h : ¬ exhausted F = true) :
    ¬ exhausted (w.depart c method params server F).2 = true := by
  rcases w.depart_cases c method params server F with ⟨-, same⟩ | ⟨_, _, _, -, -, -, same⟩
  · rwa [same]
  · rw [same, FanOut.exhausted_iff]
    simp

theorem replies_depart (w : World σ) (server : String) :
    (w.depart c method params server F).2.replies = F.replies := by
  rcases w.depart_cases c method params server F with ⟨-, same⟩ | ⟨_, _, _, -, -, -, same⟩
  · rw [same]
  · rw [same]

theorem firstVerdict_depart (w : World σ) (server : String) (h : firstVerdict F = none) :
    firstVerdict (w.depart c method params server F).2 = none := by
  rw [firstVerdict_eq_none] at h ⊢
  rw [replies_depart]
  exact h.imp (exhausted_depart w server) id

theorem judges_first :
    Judges (o := .askFirst shape method contentTypes (.ok params)) c method params id
      firstVerdict where
  resume w F := by
    simp only [resume, FanOut.progress, ← flyAll_snd, Bool.false_eq_true, if_false, id_eq]
    cases firstVerdict (flyAll shape w F).2 <;> rfl
  release _ _ _ := rfl
  undecided w server _ h := firstVerdict_depart w server h

theorem judges_all :
    Judges (o := .askAll shape method contentType (.ok params)) c method params id
      allVerdict where
  resume w F := by
    simp only [resume, FanOut.progress, ← flyAll_snd, Bool.false_eq_true, if_false, id_eq]
    cases allVerdict (flyAll shape w F).2 <;> rfl
  release _ _ _ := rfl
  undecided w server F h := by
    rw [allVerdict_eq_none] at h ⊢
    exact exhausted_depart w server h

/-- The verdict on a request to one server. -/
def onlyVerdict (F : FanOut shape.Val) : Option (Except RouterError (Option shape.Val)) :=
  (firstVerdict F).map fun r => r.map fun t => t.map (·.value)

theorem judges_only {server : String} :
    Judges (o := .ask shape method server (.ok params)) c method params id onlyVerdict where
  resume w F := by
    simp only [resume, FanOut.progress, onlyVerdict, ← flyAll_snd, Bool.false_eq_true, if_false,
      id_eq]
    cases firstVerdict (flyAll shape w F).2 <;> rfl
  release _ _ _ := rfl
  undecided w server F h := by
    rw [onlyVerdict, Option.map_eq_none_iff] at h ⊢
    exact firstVerdict_depart w server h

/-! ### What has arrived when the operation answers -/

theorem start_askFirst (c : Collaborators σ) (shape : Shape) (method : String)
    (contentTypes : List String) (params : Json) (w : World σ) :
    w.start c false (.askFirst shape method contentTypes (.ok params)) = (w,
      (⟨w.core.registry.serversFor contentTypes, [], [], w.core.requestTimeout⟩ :
        FanOut shape.Val).progress (o := .askFirst shape method contentTypes (.ok params)) id
          firstVerdict) := by
  simp only [start]
  split
  · next none =>
    rw [List.isEmpty_iff.1 none]
    rfl
  · next some =>
    have undecided : firstVerdict (⟨w.core.registry.serversFor contentTypes, [], [],
        w.core.requestTimeout⟩ : FanOut shape.Val) = none := by
      rw [firstVerdict_eq_none, FanOut.exhausted_iff]
      simpa [Replies.Answered] using some
    rw [FanOut.progress_of_none undecided, id_eq]

theorem start_askAll (c : Collaborators σ) (shape : Shape) (method contentType : String)
    (params : Json) (w : World σ) :
    w.start c false (.askAll shape method contentType (.ok params)) = (w,
      (⟨w.core.registry.serversFor [contentType], [], [], w.core.requestTimeout⟩ :
        FanOut shape.Val).progress (o := .askAll shape method contentType (.ok params)) id
          allVerdict) := by
  simp only [start]
  split
  · next none =>
    rw [List.isEmpty_iff.1 none, FanOut.progress_of_some (allVerdict_eq_some.2 ⟨rfl, rfl⟩)]
    simp [Replies.all, Replies.firstError?, Replies.answers]
  · next some =>
    have undecided : allVerdict (⟨w.core.registry.serversFor [contentType], [], [],
        w.core.requestTimeout⟩ : FanOut shape.Val) = none := by
      rw [allVerdict_eq_none, FanOut.exhausted_iff]
      simpa using some
    rw [FanOut.progress_of_none undecided, id_eq]

/-- A request of which the first answer counts, among the servers of its content types. -/
theorem turns_askFirst (c : Collaborators σ) (shape : Shape) (method : String)
    (contentTypes : List String) (params : Json) (w : World σ) (turns : List (Turn × World σ)) :
    let servers := w.core.registry.serversFor contentTypes
    let run := (TaskState.ready (.call (.askFirst shape method contentTypes (.ok params)))).turns c
      ((.own, w) :: turns)
    let F := w.fannedOut c shape method params firstVerdict servers turns
    (∀ r, run.1 = .finished r ↔ firstVerdict F = some r) ∧
      (run.2 ++ F.grounded.map fun s => (s.name, method, params)).Perm
        (servers.map fun s => (s.name, method, params)) :=
  judges_first.turns_start (start_askFirst c shape method contentTypes params w) turns

/-- A request of which all answers count, among the servers of its content type. -/
theorem turns_askAll (c : Collaborators σ) (shape : Shape) (method contentType : String)
    (params : Json) (w : World σ) (turns : List (Turn × World σ)) :
    let servers := w.core.registry.serversFor [contentType]
    let run := (TaskState.ready (.call (.askAll shape method contentType (.ok params)))).turns c
      ((.own, w) :: turns)
    let F := w.fannedOut c shape method params allVerdict servers turns
    (∀ r, run.1 = .finished r ↔ allVerdict F = some r) ∧
      (run.2 ++ F.grounded.map fun s => (s.name, method, params)).Perm
        (servers.map fun s => (s.name, method, params)) :=
  judges_all.turns_start (start_askAll c shape method contentType params w) turns

/-- Once all answers are in, the operation answers what they amount to, and every server has been
asked once. -/
theorem allVerdict_of_finished {result : Except RouterError (List (Tagged shape.Val))}
    (h : ((TaskState.ready (.call (.askAll shape method contentType (.ok params)))).turns c
      ((.own, w) :: turns)).1 = .finished result) :
    let servers := w.core.registry.serversFor [contentType]
    let arrivals := w.arrivals c shape method params allVerdict servers turns
    w.Replied c shape method params servers arrivals ∧ result = arrivals.all ∧
      ((TaskState.ready (.call (.askAll shape method contentType (.ok params)))).turns c
        ((.own, w) :: turns)).2.Perm (servers.map fun s => (s.name, method, params)) := by
  intro servers arrivals
  obtain ⟨finished, sent⟩ := turns_askAll c shape method contentType params w turns
  obtain ⟨done, all⟩ := allVerdict_eq_some.1 ((finished result).1 h)
  refine ⟨replied_of_exhausted done, all.symm, ?_⟩
  rwa [(FanOut.exhausted_iff.1 done).1, List.map_nil, List.append_nil] at sent

/-- A request to one server that has been sent out. -/
theorem turns_ask (c : Collaborators σ) (shape : Shape) (method : String) {server : String}
    (params : Json) {w : World σ} {s : Server}
    (registered : w.core.registry.get? server = some s) (turns : List (Turn × World σ)) :
    ((TaskState.ready (.call (.ask shape method server (.ok params)))).turns c
        ((.own, w) :: turns)).1 = progressed ((((⟨[],
      [(w.launch c s method params w.core.requestTimeout).2], [], w.core.requestTimeout⟩ :
        FanOut shape.Val).look shape w.now).followed c method params onlyVerdict turns).progress
          (o := .ask shape method server (.ok params)) id onlyVerdict) := by
  have began : (w.start c false (.ask shape method server (.ok params))).2 = ((⟨[],
      [(w.launch c s method params w.core.requestTimeout).2], [], w.core.requestTimeout⟩ :
        FanOut shape.Val).look shape w.now).progress
          (o := .ask shape method server (.ok params)) id onlyVerdict := by
    have now := (listens_launch c w s method params w.core.requestTimeout).now
    have allowed : (w.launch c s method params w.core.requestTimeout).1.core.requestTimeout =
        w.core.requestTimeout := by rw [apart_launch c w s method params _]
    have judges : Judges (o := .ask shape method server (.ok params)) c method params id
        onlyVerdict := judges_only
    have looked := judges.resume (w.launch c s method params w.core.requestTimeout).1
      ⟨[], [(w.launch c s method params w.core.requestTimeout).2], [], w.core.requestTimeout⟩
    rw [now] at looked
    simp only [start, registered, Bool.false_eq_true, if_false, allowed]
    exact looked
  rw [TaskState.turns_cons, poll_call]
  dsimp only
  rw [began]
  exact (judges_only.turns _ turns).1

/-- A request to one server answers what the way amounts to in which the server's work has ended. -/
theorem reply_of_finished_ask {server : String} {s : Server}
    (registered : w.core.registry.get? server = some s)
    {result : Except RouterError (Option shape.Val)}
    (h : ((TaskState.ready (.call (.ask shape method server (.ok params)))).turns c
      ((.own, w) :: turns)).1 = .finished result) :
    ∃ reply,
      (c.request w.outside s.endpoint method params).2.outcome.Ends shape s.name method
        w.core.requestTimeout
        (w.core.requestTimeout < (c.request w.outside s.endpoint method params).2.duration) reply ∧
      result = (Replies.first [(s.name, reply)]).map fun t => t.map (·.value) := by
  rw [turns_ask c shape method params registered, FanOut.progressed_eq_finished] at h
  obtain ⟨first, judged, rfl⟩ := Option.map_eq_some_iff.1 h
  rw [firstVerdict_eq_some] at judged
  obtain ⟨decided, rfl⟩ := judged
  let flight := (w.launch c s method params w.core.requestTimeout).2
  have began : (⟨[], [flight], [], w.core.requestTimeout⟩ : FanOut shape.Val).Accounts c method
      params (· = flight) [s.name] := by
    refine ⟨.refl _, nofun, fun f hf => ?_, fun a ha => absurd ha List.not_mem_nil⟩
    obtain rfl : f = flight := List.mem_singleton.1 hf
    exact ⟨paced_launch c w s method params _, _, rfl, rfl⟩
  have accounts := (began.look w.now).followed onlyVerdict turns
  generalize ((⟨[], [flight], [], w.core.requestTimeout⟩ : FanOut shape.Val).look shape
    w.now).followed c method params onlyVerdict turns = F at accounts decided ⊢
  -- There is one flight, so that a verdict rests on its reply.
  have count := accounts.names.length_eq
  simp only [List.length_append, List.length_map, List.length_singleton] at count
  have one : F.replies.length = 1 := by
    rcases decided with done | ⟨a, ha, -⟩
    · obtain ⟨grounded, flights⟩ := FanOut.exhausted_iff.1 done
      rw [grounded, flights] at count
      exact count
    · have some := List.length_pos_of_mem ha
      omega
  obtain ⟨⟨name, reply⟩, only⟩ := List.length_eq_one_iff.1 one
  obtain ⟨f, rfl, named, ends⟩ := accounts.ends (name, reply) (by simp [only])
  obtain rfl : name = s.name := named
  have allowed : flight.timeout = w.core.requestTimeout := rfl
  refine ⟨reply, ?_, by rw [only]⟩
  rw [Flight.Ends, deadline_launch, finish_launch, Nat.add_lt_add_iff_left, allowed] at ends
  exact ends

/-! ### Whether there is an answer -/

/-- All servers' replies, if each is what becomes of the server sooner or later. -/
def fates (servers : List Server) (fate : String → Reply shape.Val) : Replies shape.Val :=
  servers.map fun s => (s.name, fate s.name)

/-- Whether a request answers, has nothing to say, or fails is decided by what becomes of its
servers sooner or later, in whatever order they reply, and whoever is not asked. -/
theorem kind_of_finished_askFirst {fate : String → Reply shape.Val}
    {result : Except RouterError (Option (Tagged shape.Val))}
    (h : ((TaskState.ready (.call (.askFirst shape method contentTypes (.ok params)))).turns c
      ((.own, w) :: turns)).1 = .finished result)
    (fated : ∀ a ∈ w.arrivals c shape method params firstVerdict
      (w.core.registry.serversFor contentTypes) turns, a.2 = fate a.1) :
    Replies.kind result =
      Replies.kind (fates (w.core.registry.serversFor contentTypes) fate).first := by
  obtain ⟨finished, -⟩ := turns_askFirst c shape method contentTypes params w turns
  obtain ⟨decided, rfl⟩ := firstVerdict_eq_some.1 ((finished result).1 h)
  have settles := Replies.settles_first (w.arrivals c shape method params firstVerdict
    (w.core.registry.serversFor contentTypes) turns)
  have settles' := Replies.settles_first (fates (w.core.registry.serversFor contentTypes) fate)
  rcases decided with done | answered
  · -- Everybody has replied.
    refine settles.kind_eq settles' ?_
    have same := (replied_of_exhausted done).names.map fun name => (name, fate name)
    rw [List.map_map, List.map_map] at same
    refine .trans (.of_eq ?_) same
    exact (List.map_id' _).symm.trans
      (List.map_congr_left fun a ha => Prod.ext rfl (fated a ha))
  · -- The answer that has arrived is among what becomes of the servers.
    refine (settles.answered_iff.2 answered).trans (settles'.answered_iff.2 ?_).symm
    obtain ⟨a, ha, value, said⟩ := answered
    obtain ⟨s, hs, named, -⟩ := possible_of_mem_arrivals ha
    refine ⟨(s.name, fate s.name), List.mem_map_of_mem hs, value, ?_⟩
    rw [← named, ← fated a ha, said]

theorem fates_perm {servers servers' : List Server} (fate : String → Reply shape.Val)
    (same : (servers.map (·.name)).Perm (servers'.map (·.name))) :
    (fates servers fate).Perm (fates servers' fate) := by
  have fated := same.map fun name => (name, fate name)
  rwa [List.map_map, List.map_map] at fated

end World

/-! ## Servers of the sample -/

open Scenario Scenario.Sample

namespace Scenario.Sample

/-- Servers of numbers. Asked to count, one answers a number after a while, one dies, one never
answers, one has nothing to say, and one answers a word. -/
def counters : List Server :=
  [⟨"able", ["number"], 1⟩, ⟨"dying", ["number"], 2⟩, ⟨"hanging", ["number"], 3⟩,
    ⟨"silent", ["text", "number"], 4⟩, ⟨"wordy", ["number"], 5⟩]

/-- A world with these servers and one of texts only. -/
def counting : World Script where
  core := { Core.new with registry := .ofServers (counters ++ [⟨"other", ["text"], 6⟩]) }
  outside := { script none [] with
    endpoints := [(1, ⟨[("count", [⟨[], 8, .answer (.int 7)⟩])], none⟩),
      (2, ⟨[("count", [⟨[], 2, .die⟩])], none⟩), (3, ⟨[("count", [⟨[], 0, .hang⟩])], none⟩),
      (4, ⟨[("count", [⟨[], 3, .answer .null⟩])], none⟩),
      (5, ⟨[("count", [⟨[], 1, .answer (.str "seven")⟩])], none⟩)] }
  now := 0
  traffic := []

/-- Every server is asked, and then they are looked at, the last time when the time is up. -/
def countingTurns : List (Turn × World Script) :=
  (counters.map fun s => (.release s.name, counting)) ++
    [2, 4, 9, 5000].map fun now => (.own, { counting with now })

theorem serversFor_counting : counting.core.registry.serversFor ["number"] = counters := by cbv

theorem fair_counting : FanOut.Fair counters counting.core.requestTimeout countingTurns := by
  refine ⟨counters.map fun s => (.release s.name, counting), _, rfl, fun s hs => ?_,
    { counting with now := 5000 }, by simp, fun t ht => ?_⟩
  · exact ⟨counting, List.mem_map_of_mem hs⟩
  · obtain ⟨s, -, rfl⟩ := List.mem_map.1 ht
    have allowed : counting.now + counting.core.requestTimeout ≤ 5000 := by decide
    exact allowed

end Scenario.Sample

namespace World

variable {method : String} {params : Json} {contentTypes : List String} {contentType : String}
  {w : World σ} {turns : List (Turn × World σ)}

/-- The servers of the content types are asked, each at most once, and nobody else is. Once the
request is answered, the answer is what the replies settle, in the order of their arrival, and
either it is a server's answer or all servers have been asked and have replied. Which kind of answer
it is depends on what becomes of the servers, but not on the order of turns and replies. If no turn
is withheld, the request is answered. -/
theorem first_answer_counts (c : Collaborators σ) (shape : Shape) (method : String)
    (contentTypes : List String) (params : Json) (w : World σ) (turns : List (Turn × World σ))
    (one : w.core.registry.OneEach) :
    let servers := w.core.registry.serversFor contentTypes
    let arrivals := w.arrivals c shape method params firstVerdict servers turns
    let request := TaskState.ready (.call (.askFirst shape method contentTypes (.ok params)))
    let run := request.turns c ((.own, w) :: turns)
    (∀ s, s ∈ servers ↔
      w.core.registry.get? s.name = some s ∧ contentTypes.any s.serves = true) ∧
    (servers.map (·.name)).Nodup ∧
    (∃ unasked, (run.2 ++ unasked).Perm (servers.map fun s => (s.name, method, params))) ∧
    (∃ silent, (arrivals.map (·.1) ++ silent).Perm (run.2.map (·.1))) ∧
    (∀ a ∈ arrivals, w.Possible c shape method params servers a) ∧
    (∀ result, run.1 = .finished result →
      arrivals.Settles result ∧
      (Replies.kind result ≠ .answer → w.Replied c shape method params servers arrivals ∧
        run.2.Perm (servers.map fun s => (s.name, method, params))) ∧
      ∀ (c' : Collaborators σ) (w' : World σ) (turns' : List (Turn × World σ)) result',
        let servers' := w'.core.registry.serversFor contentTypes
        (request.turns c' ((.own, w') :: turns')).1 = .finished result' →
        (servers'.map (·.name)).Perm (servers.map (·.name)) →
        (∃ fate : String → Reply shape.Val, ∀ a ∈ arrivals ++
          w'.arrivals c' shape method params firstVerdict servers' turns', a.2 = fate a.1) →
        Replies.kind result' = Replies.kind result) ∧
    (FanOut.Fair servers w.core.requestTimeout turns → ∃ result, run.1 = .finished result) := by
  intro servers arrivals request run
  obtain ⟨finished, sent⟩ := turns_askFirst c shape method contentTypes params w turns
  have accounted := (w.accounts_fannedOut c shape method params firstVerdict servers turns).names
  refine ⟨fun s => one.mem_serversFor, one.nodup_names, ⟨_, sent⟩, ?_,
    fun a ha => possible_of_mem_arrivals ha, fun result ended => ⟨?_, ?_, ?_⟩, fun fair => ?_⟩
  · -- Whoever has replied or is at work has been asked.
    refine ⟨_, (List.perm_append_right_iff _).1 (accounted.trans ?_)⟩
    have names := sent.symm.map (·.1)
    rwa [List.map_append, List.map_map, List.map_map] at names
  · obtain ⟨-, rfl⟩ := firstVerdict_eq_some.1 ((finished result).1 ended)
    exact Replies.settles_first arrivals
  · intro unanswered
    obtain ⟨decided, rfl⟩ := firstVerdict_eq_some.1 ((finished result).1 ended)
    have done := decided.resolve_right fun answered =>
      unanswered ((Replies.settles_first arrivals).answered_iff.2 answered)
    refine ⟨replied_of_exhausted done, ?_⟩
    rwa [(FanOut.exhausted_iff.1 done).1, List.map_nil, List.append_nil] at sent
  · rintro c' w' turns' result' servers' ended' same ⟨fate, fated⟩
    rw [List.forall_mem_append] at fated
    rw [kind_of_finished_askFirst ended fated.1, kind_of_finished_askFirst ended' fated.2]
    exact (Replies.settles_first _).kind_eq (Replies.settles_first _) (fates_perm fate same)
  · obtain ⟨result, judged⟩ := FanOut.exists_verdict c method params
      (fun F done => ⟨_, firstVerdict_eq_some.2 ⟨.inl done, rfl⟩⟩) one.nodup_names fair
    exact ⟨result, (finished result).2 judged⟩

/-- Failures, a death and a server that has nothing to say do not hide a later answer. -/
theorem first_answer_counts_counting :
    ∃ result, ((TaskState.ready (.call (.askFirst .int "count" ["number"] (.ok .null)))).turns
        Script.collaborators ((.own, counting) :: countingTurns)).1 = .finished result ∧
      Replies.kind result = .answer := by
  have arrived : ("able", .answer 7) ∈ counting.arrivals Script.collaborators .int "count" .null
      firstVerdict counters countingTurns := by
    have all : counting.arrivals Script.collaborators .int "count" .null firstVerdict counters
        countingTurns =
      [("wordy", .failed (.invalidResponse "wordy" "count" "the answer has another shape")),
        ("dying", .died), ("silent", .nothing), ("able", .answer 7)] := by cbv
    rw [all]
    simp
  have counted := first_answer_counts Script.collaborators .int "count" ["number"] .null counting
    countingTurns (Registry.oneEach_ofServers _)
  dsimp only at counted
  rw [serversFor_counting] at counted
  obtain ⟨-, -, -, -, -, settles, answered⟩ := counted
  obtain ⟨result, finished⟩ := answered fair_counting
  exact ⟨result, finished, (settles result finished).1.answered_iff.2 ⟨_, arrived, 7, rfl⟩⟩

/-- Servers of the content types are not asked whose tasks have not had their turn when another has
answered, and nobody is asked if the parameters cannot be written down. -/
theorem servers_not_asked :
    counting.core.registry.serversFor ["number"] = counters ∧
    (TaskState.ready (.call (.askFirst .int "count" ["number"] (.ok .null)))).turns
        Script.collaborators [(.own, counting), (.release "able", counting),
          (.own, { counting with now := 8 })] =
      (.finished (.ok (some ⟨"able", 7⟩)), [("able", "count", .null)]) ∧
    (TaskState.ready (.call (.askFirst .int "count" ["number"] (.error "unencodable")))).turns
        Script.collaborators [(.own, counting)] =
      (.finished (.error (unencodable "count" "unencodable")), []) := by
  refine ⟨serversFor_counting, ?_, ?_⟩
  · cbv
  · cbv

/-- A request of which all answers count is answered if no turn is withheld. Every server of the
content type is asked once and no other, and the answer is all that was answered, by the names of
the servers; it is the same for every order of arrival. It is a failure, the first that arrived,
only if some server failed and none answered. -/
theorem all_answers_count (c : Collaborators σ) (shape : Shape) (method contentType : String)
    (params : Json) (w : World σ) (turns : List (Turn × World σ)) (one : w.core.registry.OneEach)
    (fair : FanOut.Fair (w.core.registry.serversFor [contentType]) w.core.requestTimeout turns) :
    let servers := w.core.registry.serversFor [contentType]
    let arrivals := w.arrivals c shape method params allVerdict servers turns
    let request := TaskState.ready (.call (.askAll shape method contentType (.ok params)))
    let run := request.turns c ((.own, w) :: turns)
    (∀ s, s ∈ servers ↔ w.core.registry.get? s.name = some s ∧ s.serves contentType = true) ∧
    (servers.map (·.name)).Nodup ∧
    w.Replied c shape method params servers arrivals ∧
    ∃ result,
      run.1 = .finished result ∧
      run.2.Perm (servers.map fun s => (s.name, method, params)) ∧
      arrivals.Gathers result ∧
      ((∃ e, result = .error e) ↔ arrivals.Failed ∧ ¬ arrivals.Spoke) ∧
      (∀ server value, (server, .answer value) ∈ arrivals →
        ∃ list, result = .ok list ∧ ⟨server, value⟩ ∈ list) ∧
      ∀ (c' : Collaborators σ) (w' : World σ) (turns' : List (Turn × World σ)) result',
        (request.turns c' ((.own, w') :: turns')).1 = .finished result' →
        (w'.arrivals c' shape method params allVerdict
          (w'.core.registry.serversFor [contentType]) turns').Perm arrivals →
        ∀ list, result = .ok list → result' = .ok list := by
  intro servers arrivals request run
  obtain ⟨finished, -⟩ := turns_askAll c shape method contentType params w turns
  obtain ⟨result, judged⟩ := FanOut.exists_verdict c method params
    (fun F done => ⟨_, allVerdict_eq_some.2 ⟨done, rfl⟩⟩) one.nodup_names fair
  have ended : run.1 = .finished result := (finished result).2 judged
  obtain ⟨replied, all, asked⟩ := allVerdict_of_finished ended
  have distinct := replied.distinct one.nodup_names
  have gathers : arrivals.Gathers result := by
    rw [all]
    exact Replies.gathers_all distinct
  refine ⟨fun s => ?_, one.nodup_names, replied, result, ended, asked, gathers, gathers.error_iff,
    fun server value => gathers.mem_of_answer, ?_⟩
  · have served : s ∈ servers ↔ _ := one.mem_serversFor
    simpa using served
  · intro c' w' turns' result' ended' same list ok
    have distinct' := ((same.map (·.1)).nodup_iff).2 distinct
    rw [(allVerdict_of_finished ended').2.1]
    rw [ok] at gathers
    exact gathers.eq_ok (Replies.gathers_all distinct') same.symm

theorem all_answers_count_counting :
    ∃ list, ((TaskState.ready (.call (.askAll .int "count" "number" (.ok .null)))).turns
        Script.collaborators ((.own, counting) :: countingTurns)).1 = .finished (.ok list) ∧
      ⟨"able", 7⟩ ∈ list := by
  have arrived : ("able", .answer 7) ∈ counting.arrivals Script.collaborators .int "count" .null
      allVerdict counters countingTurns := by
    have all : counting.arrivals Script.collaborators .int "count" .null allVerdict counters
        countingTurns =
      [("wordy", .failed (.invalidResponse "wordy" "count" "the answer has another shape")),
        ("dying", .died), ("silent", .nothing), ("able", .answer 7),
        ("hanging", .failed (.timeout "hanging" "count" 5000))] := by cbv
    rw [all]
    simp
  have counted := all_answers_count Script.collaborators .int "count" "number" .null counting
    countingTurns (Registry.oneEach_ofServers _) (by rw [serversFor_counting]; exact fair_counting)
  dsimp only at counted
  rw [serversFor_counting] at counted
  obtain ⟨-, -, -, result, finished, -, -, -, answered, -⟩ := counted
  obtain ⟨list, rfl, able⟩ := answered "able" 7 arrived
  exact ⟨list, finished, able⟩

end World

end PolyglotLsp
