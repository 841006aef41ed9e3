import Mathlib.Data.List.Nodup
import Mathlib.Data.List.Perm.Basic
import PolyglotLsp.Server.Reply

/-!
# What replies amount to

Servers reply in any order. If the first answer counts, it is the one that arrived first; without
an answer there is nothing, unless all that arrived were failures and deaths, and then the first
failure counts (`Settles`, `settles_first`). If all answers count, they come by the names of their
servers, and a failure counts only if nobody has answered (`Gathers`, `gathers_all`). So the order
of arrival decides which answer or which failure it is, but never whether there is one
(`Settles.kind_eq`), and it does not matter at all for answers that are gathered (`Gathers.eq_ok`).
-/

namespace PolyglotLsp.Replies

variable {α : Type} {rs rs' : Replies α}

/-! ## Who has spoken -/

/-- Some server has answered with a value. -/
def Answered (rs : Replies α) : Prop := ∃ a ∈ rs, ∃ value, a.2 = .answer value

/-- Some server has answered, with a value or with nothing. -/
def Spoke (rs : Replies α) : Prop := rs.Answered ∨ ∃ a ∈ rs, a.2 = .nothing

/-- Some server has failed. -/
def Failed (rs : Replies α) : Prop := ∃ a ∈ rs, ∃ e, a.2 = .failed e

/-- The first failure among the replies. -/
def FirstFailure (rs : Replies α) (e : RouterError) : Prop :=
  ∃ before server after, rs = before ++ (server, .failed e) :: after ∧ ¬ Failed before

theorem Answered.perm (h : rs.Answered) (p : rs.Perm rs') : rs'.Answered := by
  obtain ⟨a, ha, answered⟩ := h
  exact ⟨a, p.mem_iff.1 ha, answered⟩

theorem Spoke.perm (h : rs.Spoke) (p : rs.Perm rs') : rs'.Spoke := by
  rcases h with answered | ⟨a, ha, nothing⟩
  · exact .inl (answered.perm p)
  · exact .inr ⟨a, p.mem_iff.1 ha, nothing⟩

theorem Failed.perm (h : rs.Failed) (p : rs.Perm rs') : rs'.Failed := by
  obtain ⟨a, ha, failed⟩ := h
  exact ⟨a, p.mem_iff.1 ha, failed⟩

theorem FirstFailure.failed {e : RouterError} (h : rs.FirstFailure e) : rs.Failed := by
  obtain ⟨before, server, after, rfl, -⟩ := h
  exact ⟨_, List.mem_append_right _ List.mem_cons_self, e, rfl⟩

theorem mem_answers {server : String} {value : α} :
    ⟨server, value⟩ ∈ rs.answers ↔ (server, .answer value) ∈ rs := by
  simp only [answers, List.mem_filterMap]
  constructor
  · rintro ⟨⟨name, reply⟩, ha, tagged⟩
    cases reply with
    | answer v =>
      cases tagged
      exact ha
    | nothing | failed | died => cases tagged
  · intro ha
    exact ⟨_, ha, rfl⟩

theorem answers_ne_nil : rs.answers ≠ [] ↔ rs.Answered := by
  constructor
  · intro some
    obtain ⟨⟨server, value⟩, ha⟩ := List.exists_mem_of_ne_nil _ some
    exact ⟨_, mem_answers.1 ha, value, rfl⟩
  · rintro ⟨⟨server, reply⟩, ha, value, rfl⟩
    exact List.ne_nil_of_mem (mem_answers.2 ha)

theorem answers_eq_nil : rs.answers = [] ↔ ¬ rs.Answered := by
  rw [← answers_ne_nil, not_not]

theorem anyNothing_iff : rs.anyNothing = true ↔ ∃ a ∈ rs, a.2 = .nothing := by
  rw [anyNothing, List.any_eq_true]
  refine exists_congr fun a => and_congr_right fun _ => ?_
  cases a.2 <;> simp [Reply.isNothing]

theorem error?_eq_some {r : Reply α} {e : RouterError} : r.error? = some e ↔ r = .failed e := by
  cases r <;> simp [Reply.error?]

theorem firstError?_eq_some {e : RouterError} : rs.firstError? = some e ↔ rs.FirstFailure e := by
  rw [firstError?, List.findSome?_eq_some_iff]
  constructor
  · rintro ⟨before, ⟨server, reply⟩, after, split, found, none⟩
    obtain rfl : reply = .failed e := error?_eq_some.1 found
    refine ⟨before, server, after, split, ?_⟩
    rintro ⟨a, ha, e', failed⟩
    cases (none a ha).symm.trans (error?_eq_some.2 failed)
  · rintro ⟨before, server, after, split, none⟩
    refine ⟨before, _, after, split, rfl, fun a ha => ?_⟩
    refine Option.eq_none_iff_forall_ne_some.2 fun e' found => ?_
    exact none ⟨a, ha, e', error?_eq_some.1 found⟩

theorem firstError?_eq_none : rs.firstError? = none ↔ ¬ rs.Failed := by
  rw [firstError?, List.findSome?_eq_none_iff]
  constructor
  · rintro none ⟨a, ha, e, failed⟩
    cases (none a ha).symm.trans (error?_eq_some.2 failed)
  · intro none a ha
    refine Option.eq_none_iff_forall_ne_some.2 fun e found => ?_
    exact none ⟨a, ha, e, error?_eq_some.1 found⟩

/-! ## The first answer -/

/-- What replies amount to of which the first answer counts. -/
inductive Settles (rs : Replies α) : Except RouterError (Option (Tagged α)) → Prop
  | answer {before after : Replies α} {server : String} {value : α}
      (split : rs = before ++ (server, .answer value) :: after) (first : ¬ Answered before) :
      Settles rs (.ok (some ⟨server, value⟩))
  | nothing (unanswered : ¬ rs.Answered) (calm : rs.Spoke ∨ ¬ rs.Failed) : Settles rs (.ok none)
  | failure {e : RouterError} (mute : ¬ rs.Spoke) (first : rs.FirstFailure e) :
      Settles rs (.error e)

theorem exists_first_of_answered (h : rs.Answered) :
    ∃ before server value after, rs = before ++ (server, .answer value) :: after ∧
      ¬ Answered before := by
  induction rs with
  | nil =>
    obtain ⟨_, ha, -⟩ := h
    cases ha
  | cons a rest ih =>
    by_cases now : ∃ value, a.2 = .answer value
    · obtain ⟨value, answered⟩ := now
      refine ⟨[], a.1, value, rest, ?_, ?_⟩
      · rw [← answered]
        rfl
      · rintro ⟨_, ha, -⟩
        cases ha
    · have later : Answered rest := by
        obtain ⟨b, hb, value, answered⟩ := h
        rcases List.mem_cons.1 hb with rfl | hb
        · exact absurd ⟨value, answered⟩ now
        · exact ⟨b, hb, value, answered⟩
      obtain ⟨before, server, value, after, rfl, first⟩ := ih later
      refine ⟨a :: before, server, value, after, rfl, ?_⟩
      rintro ⟨b, hb, answered⟩
      rcases List.mem_cons.1 hb with rfl | hb
      · exact now answered
      · exact first ⟨b, hb, answered⟩

theorem answers_of_first {before after : Replies α} {server : String} {value : α}
    (first : ¬ Answered before) :
    answers (before ++ (server, .answer value) :: after) = ⟨server, value⟩ :: answers after := by
  rw [answers, List.filterMap_append, ← answers, answers_eq_nil.2 first]
  rfl

theorem settles_first (rs : Replies α) : rs.Settles rs.first := by
  by_cases answered : rs.Answered
  · obtain ⟨before, server, value, after, rfl, first⟩ := exists_first_of_answered answered
    rw [Replies.first, answers_of_first first]
    exact .answer rfl first
  · rw [first, answers_eq_nil.2 answered]
    cases failed : rs.firstError? with
    | none => exact .nothing answered (.inr (firstError?_eq_none.1 failed))
    | some e =>
      by_cases nothing : rs.anyNothing = true
      · simp only [nothing, if_true]
        exact .nothing answered (.inl (.inr (anyNothing_iff.1 nothing)))
      · simp only [nothing, Bool.false_eq_true, if_false]
        refine .failure ?_ (firstError?_eq_some.1 failed)
        rintro (spoke | spoke)
        · exact answered spoke
        · exact nothing (anyNothing_iff.2 spoke)

/-- Whether there is an answer, nothing, or a failure. -/
inductive Kind where
  | answer
  | nothing
  | failure
  deriving DecidableEq

def kind : Except RouterError (Option (Tagged α)) → Kind
  | .ok (some _) => .answer
  | .ok none => .nothing
  | .error _ => .failure

variable {result result' : Except RouterError (Option (Tagged α))}

theorem Settles.answered_iff (h : rs.Settles result) : kind result = .answer ↔ rs.Answered := by
  cases h with
  | @answer before after server value split first =>
    refine iff_of_true rfl ?_
    rw [split]
    exact ⟨_, List.mem_append_right _ List.mem_cons_self, value, rfl⟩
  | nothing unanswered calm => exact iff_of_false nofun unanswered
  | failure mute first => exact iff_of_false nofun fun answered => mute (.inl answered)

theorem Settles.failed_iff (h : rs.Settles result) :
    kind result = .failure ↔ rs.Failed ∧ ¬ rs.Spoke := by
  cases h with
  | @answer before after server value split first =>
    refine iff_of_false nofun fun failed => failed.2 (.inl ?_)
    rw [split]
    exact ⟨_, List.mem_append_right _ List.mem_cons_self, value, rfl⟩
  | nothing unanswered calm =>
    refine iff_of_false nofun ?_
    rintro ⟨failed, mute⟩
    rcases calm with spoke | unfailed
    · exact mute spoke
    · exact unfailed failed
  | failure mute first => exact iff_of_true rfl ⟨first.failed, mute⟩

/-- The order of arrival does not decide whether there is an answer, nothing, or a failure. -/
theorem Settles.kind_eq (h : rs.Settles result) (h' : rs'.Settles result') (p : rs.Perm rs') :
    kind result = kind result' := by
  have answered : kind result = .answer ↔ kind result' = .answer := by
    rw [h.answered_iff, h'.answered_iff]
    exact ⟨fun a => a.perm p, fun a => a.perm p.symm⟩
  have failed : kind result = .failure ↔ kind result' = .failure := by
    rw [h.failed_iff, h'.failed_iff]
    exact ⟨fun f => ⟨f.1.perm p, fun s => f.2 (s.perm p.symm)⟩,
      fun f => ⟨f.1.perm p.symm, fun s => f.2 (s.perm p)⟩⟩
  cases one : kind result <;> cases other : kind result' <;> simp_all

/-! ## All answers -/

/-- What replies amount to of which all answers count. -/
inductive Gathers (rs : Replies α) : Except RouterError (List (Tagged α)) → Prop
  | answers {list : List (Tagged α)} (increasing : list.Pairwise fun a b => a.server < b.server)
      (members : ∀ server value, ⟨server, value⟩ ∈ list ↔ (server, .answer value) ∈ rs)
      (calm : rs.Spoke ∨ ¬ rs.Failed) : Gathers rs (.ok list)
  | failure {e : RouterError} (mute : ¬ rs.Spoke) (first : rs.FirstFailure e) :
      Gathers rs (.error e)

/-- The answers by the names of their servers. -/
def sorted (rs : Replies α) : List (Tagged α) :=
  rs.answers.mergeSort fun a b => decide (a.server ≤ b.server)

theorem servers_answers_sublist (rs : Replies α) :
    (rs.answers.map (·.server)).Sublist (rs.map (·.1)) := by
  induction rs with
  | nil => exact .slnil
  | cons a rest ih =>
    obtain ⟨server, reply⟩ := a
    cases reply with
    | answer value => exact ih.cons_cons server
    | nothing | failed | died => exact ih.cons server

theorem increasing_sorted (distinct : (rs.map (·.1)).Nodup) :
    rs.sorted.Pairwise fun a b => a.server < b.server := by
  have ordered : rs.sorted.Pairwise fun a b => a.server ≤ b.server := by
    let le (a b : Tagged α) : Bool := decide (a.server ≤ b.server)
    have transitive (a b c : Tagged α) (ab : le a b = true) (bc : le b c = true) :
        le a c = true := decide_eq_true
      (String.le_trans (of_decide_eq_true ab) (of_decide_eq_true bc))
    have total (a b : Tagged α) : (le a b || le b a) = true := by
      simp only [le, Bool.or_eq_true, decide_eq_true_eq]
      exact String.le_total ..
    have sorted := List.pairwise_mergeSort transitive total rs.answers
    exact sorted.imp fun h => of_decide_eq_true h
  have different : rs.sorted.Pairwise fun a b => a.server ≠ b.server := by
    have names : (rs.answers.map (·.server)).Nodup := distinct.sublist rs.servers_answers_sublist
    exact List.pairwise_map.1 (((List.mergeSort_perm _ _).map _).nodup_iff.2 names)
  -- Sorting gives `≤` only; no two servers have one name.
  refine (ordered.and different).imp fun {a b} h => String.not_le.1 fun back => ?_
  exact h.2 (String.le_antisymm h.1 back)

theorem mem_sorted {server : String} {value : α} :
    ⟨server, value⟩ ∈ rs.sorted ↔ (server, .answer value) ∈ rs := by
  rw [sorted, List.mem_mergeSort, mem_answers]

theorem gathers_all (distinct : (rs.map (·.1)).Nodup) : rs.Gathers rs.all := by
  have gathered (calm : rs.Spoke ∨ ¬ rs.Failed) : rs.Gathers (.ok rs.sorted) :=
    .answers (increasing_sorted distinct) (fun _ _ => mem_sorted) calm
  rw [all]
  cases failed : rs.firstError? with
  | none => exact gathered (.inr (firstError?_eq_none.1 failed))
  | some e =>
    dsimp only
    split
    · next mute =>
      simp only [Bool.and_eq_true, List.isEmpty_iff, Bool.not_eq_true'] at mute
      refine .failure ?_ (firstError?_eq_some.1 failed)
      rintro (spoke | spoke)
      · exact answers_eq_nil.1 mute.1 spoke
      · rw [anyNothing_iff.2 spoke] at mute
        cases mute.2
    · next spoke =>
      refine gathered (.inl ?_)
      simp only [Bool.and_eq_true, List.isEmpty_iff, Bool.not_eq_true', not_and,
        Bool.not_eq_false] at spoke
      by_cases answered : rs.Answered
      · exact .inl answered
      · exact .inr (anyNothing_iff.1 (spoke (answers_eq_nil.2 answered)))

variable {gathered gathered' : Except RouterError (List (Tagged α))}

theorem Gathers.error_iff (h : rs.Gathers gathered) :
    (∃ e, gathered = .error e) ↔ rs.Failed ∧ ¬ rs.Spoke := by
  cases h with
  | answers increasing members calm =>
    refine iff_of_false (by simp) ?_
    rintro ⟨failed, mute⟩
    rcases calm with spoke | unfailed
    · exact mute spoke
    · exact unfailed failed
  | failure mute first => exact iff_of_true ⟨_, rfl⟩ ⟨first.failed, mute⟩

theorem Gathers.mem_of_answer (h : rs.Gathers gathered) {server : String} {value : α}
    (answer : (server, .answer value) ∈ rs) :
    ∃ list, gathered = .ok list ∧ ⟨server, value⟩ ∈ list := by
  cases h with
  | answers increasing members calm => exact ⟨_, rfl, (members server value).2 answer⟩
  | failure mute first => exact absurd (.inl ⟨_, answer, value, rfl⟩) mute

/-- Answers that are gathered are the same for every order of arrival. -/
theorem Gathers.eq_ok {list : List (Tagged α)} (h : rs.Gathers (.ok list))
    (h' : rs'.Gathers gathered) (p : rs.Perm rs') : gathered = .ok list := by
  cases h with
  | answers increasing members calm =>
    cases h' with
    | failure mute first =>
      rcases calm with spoke | unfailed
      · exact absurd (spoke.perm p) mute
      · exact absurd (first.failed.perm p.symm) unfailed
    | @answers list' increasing' members' _ =>
      have same : ∀ t, t ∈ list' ↔ t ∈ list := by
        rintro ⟨server, value⟩
        rw [members', members, p.mem_iff]
      have unique {l : List (Tagged α)} (h : l.Pairwise fun a b => a.server < b.server) :
          l.Nodup := by
        refine h.imp ?_
        rintro a _ lt rfl
        exact String.lt_irrefl _ lt
      have perm : list'.Perm list :=
        (List.perm_ext_iff_of_nodup (unique increasing') (unique increasing)).2 same
      refine congrArg Except.ok (List.Perm.eq_of_pairwise ?_ increasing' increasing perm)
      intro a b _ _ ab ba
      exact absurd ab (String.lt_asymm ba)

end PolyglotLsp.Replies
