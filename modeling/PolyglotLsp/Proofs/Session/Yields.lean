import PolyglotLsp.Proofs.Session.Turns

/-!
# Requests while the store stands still

An operation may be sure of its answer: whoever begins it over a store gets the same answer, at once
or from some moment on (`Op.Yields`). A program of such operations yields one value
(`Prog.Yields`), by rules that follow the program text (`Action.Yields.bind`,
`Action.Yields.mapM`, `Action.Yields.foldlM`), and if the store stands still while time goes on, the
request ends with this value, whenever its turns come (`Prog.Yields.exists_finished`).
-/

namespace PolyglotLsp

variable {σ α β ι : Type} {c : Collaborators σ} {store : Store}

/-- An operation that is sure to answer `r` has done so, or will do so from some moment on. -/
def Op.Sure (σ : Type) (o : Op) (r : o.Result) : o.Progress → Prop
  | .answered r' => r' = r
  | .waiting pending => ∃ moment, ∀ w : World σ,
    (w.resume false o pending).2 = if moment ≤ w.now then .answered r else .waiting pending

/-- An operation that asks nobody anything has spawned no tasks. -/
theorem World.release_of_silent (c : Collaborators σ) (w : World σ) (server : String) {o : Op}
    (silent : o.request? = none) (pending : o.Pending) :
    w.release c server o pending = (w, pending) := by
  cases o with
  | askFirst _ _ _ params | askAll _ _ _ params | ask _ _ _ params =>
    cases params with
    | error => rfl
    | ok => cases silent
  | _ => rfl

/-- An operation that is sure of its answer gives no other one. -/
theorem Op.Sure.eq_of_finished {o : Op} {r r' : o.Result} {progress : o.Progress}
    {turns : List (Turn × World σ)} (h : o.Sure σ r progress) (silent : o.request? = none)
    (ended : ((World.progressed progress).turns c turns).1 = .finished r') : r' = r := by
  induction turns generalizing progress with
  | nil =>
    rw [World.eq_of_finished ended] at h
    exact h
  | cons t turns ih =>
    obtain ⟨turn, w⟩ := t
    cases progress with
    | answered r₀ =>
      rw [World.progressed, TaskState.turns_finished] at ended
      cases ended
      exact h
    | waiting pending =>
      rw [World.progressed, TaskState.turns_cons, World.poll_blocked] at ended
      refine ih ?_ ended
      cases turn with
      | own =>
        obtain ⟨moment, sure⟩ := h
        simp only [World.turn, sure w]
        split
        · rfl
        · exact ⟨moment, sure⟩
      | release server =>
        simp only [World.turn, w.release_of_silent c server silent]
        exact h

theorem Call.Ran.result_eq {k : Call σ} {requests : List (String × String × Json)}
    {r : k.op.Result} (h : k.Ran c requests) (silent : k.op.request? = none)
    (sure : k.op.Sure σ r (k.asked.world.start c false k.op).2) : k.result = r := by
  obtain ⟨turns, ended⟩ := h
  rw [TaskState.turns_cons, World.poll_call, Prod.mk.injEq] at ended
  exact sure.eq_of_finished silent ended.1

/-- The mapping service is sure of its answer once it has been asked. -/
theorem Op.sure_mapRanges (c : Collaborators σ) (w : World σ) (language : Language) (host : Url)
    (ranges : List Range) :
    (Op.mapRanges language host ranges).Sure σ
      (some (c.mapRanges w.outside language host ranges).2.value)
      (w.start c false (.mapRanges language host ranges)).2 := by
  simp only [World.start, World.resume, Bool.false_eq_true, if_false]
  split
  · rfl
  · refine ⟨(w.due (c.mapRanges w.outside language host ranges).2).moment, fun w' => ?_⟩
    simp only [World.resume, Bool.false_eq_true, if_false]
    rfl

/-- Over this store the operation is sure of its answer. -/
def Op.Yields (c : Collaborators σ) (store : Store) (o : Op) (r : o.Result) : Prop :=
  ∀ w : World σ, w.core.store = store → o.Sure σ r (w.start c false o).2

/-- Over this store the program has one value. -/
inductive Prog.Yields (c : Collaborators σ) (store : Store) : Prog α → α → Prop
  | done (a : α) : Yields c store (.done a) a
  | op {o : Op} {next : o.Result → Prog α} {r : o.Result} {a : α} (answers : o.Yields c store r)
      (rest : Yields c store (next r) a) : Yields c store (.op o next) a

theorem Prog.Yields.bind {p : Prog α} {f : α → Prog β} {a : α} {b : β} (h : p.Yields c store a)
    (h' : (f a).Yields c store b) : (p.bind f).Yields c store b := by
  induction h with
  | done a => exact h'
  | op answers _ ih => exact .op answers (ih h')

namespace Action

/-- Over this store the program does not fail and has one value. -/
def Yields (c : Collaborators σ) (store : Store) (x : Action α) (a : α) : Prop :=
  Prog.Yields c store x.run (.ok a)

namespace Yields

theorem pure (a : α) : (Pure.pure a : Action α).Yields c store a := .done _

theorem ofExcept (a : α) : (Action.ofExcept (.ok a)).Yields c store a := .done _

theorem call {o : Op} {r : o.Result} (h : o.Yields c store r) :
    (Action.call o).Yields c store r := .op h (.done _)

theorem bind {x : Action α} {f : α → Action β} {a : α} {b : β} (h : x.Yields c store a)
    (h' : (f a).Yields c store b) : (x >>= f).Yields c store b :=
  Prog.Yields.bind (f := ExceptT.bindCont f) h h'

theorem mapM {f : ι → Action β} {g : ι → β} (items : List ι)
    (h : ∀ i ∈ items, (f i).Yields c store (g i)) :
    (items.mapM f).Yields c store (items.map g) := by
  induction items with
  | nil => exact pure []
  | cons i items ih =>
    rw [List.mapM_cons]
    refine (h i List.mem_cons_self).bind ?_
    refine (ih fun j hj => h j (List.mem_cons_of_mem _ hj)).bind ?_
    exact pure _

theorem optionMapM {f : ι → Action β} {g : ι → β} (h : ∀ i, (f i).Yields c store (g i))
    (item : Option ι) : (item.mapM f).Yields c store (item.map g) := by
  cases item with
  | none => exact pure none
  | some i => exact (h i).bind (pure _)

theorem foldlM {f : β → ι → Action β} {g : β → ι → β}
    (h : ∀ b i, (f b i).Yields c store (g b i)) (items : List ι) (b : β) :
    (items.foldlM f b).Yields c store (items.foldl g b) := by
  induction items generalizing b with
  | nil => exact pure b
  | cons i items ih =>
    rw [List.foldlM_cons]
    exact (h b i).bind (ih (g b i))

end Yields

end Action

/-- Worlds in which a request may take its turns while the store stands still and time goes on. -/
structure Standstill (store : Store) (looks : Nat → World σ) : Prop where
  store : ∀ n, (looks n).core.store = store
  onward : ∀ moment n, ∃ m, n ≤ m ∧ moment ≤ (looks m).now

/-- A request comes to its end by turns of its own, the first of them at the look with this number. -/
def TaskState.EndsFrom (c : Collaborators σ) (looks : Nat → World σ) (n : Nat)
    (state : TaskState α) (a : α) : Prop :=
  ∃ k, (state.turns c ((List.range' n k).map fun i => (.own, looks i))).1 = .finished a

theorem TaskState.EndsFrom.before {looks : Nat → World σ} {n : Nat} {state : TaskState α} {a : α}
    (h : ((looks n).poll c false .own state).2.EndsFrom c looks (n + 1) a) :
    state.EndsFrom c looks n a := by
  obtain ⟨k, ended⟩ := h
  refine ⟨k + 1, ?_⟩
  rw [List.range'_succ, List.map_cons, TaskState.turns_cons]
  exact ended

namespace Prog.Yields

variable {looks : Nat → World σ} {p : Prog α} {a : α}

/-- A request that waits for an operation goes on once the operation is sure to have answered. -/
theorem endsFrom_blocked {o : Op} {pending : o.Pending} {next : o.Result → Prog α} {r : o.Result}
    {moment n distance : Nat} (still : Standstill store looks)
    (sure : ∀ w : World σ,
      (w.resume false o pending).2 = if moment ≤ w.now then .answered r else .waiting pending)
    (rest : ∀ n (w : World σ), w.core.store = store →
      (w.run c false (next r)).2.EndsFrom c looks n a)
    (due : moment ≤ (looks (n + distance)).now) :
    (TaskState.blocked o pending next).EndsFrom c looks n a := by
  have goesOn {n : Nat} (now : moment ≤ (looks n).now) :
      (TaskState.blocked o pending next).EndsFrom c looks n a := by
    have answered := sure (looks n)
    have kept := ((looks n).resume_extends false o pending).store
    refine .before ?_
    simp only [World.poll, World.turn]
    rcases resumed : (looks n).resume false o pending with ⟨w, progress⟩
    rw [resumed, if_pos now] at answered
    cases answered
    rw [resumed] at kept
    exact rest (n + 1) w (kept.trans (still.store n))
  -- on the distance to a moment at which the answer is there
  induction distance generalizing n with
  | zero => exact goesOn due
  | succ distance ih =>
    by_cases now : moment ≤ (looks n).now
    · exact goesOn now
    · have waits := sure (looks n)
      refine .before ?_
      simp only [World.poll, World.turn]
      rcases resumed : (looks n).resume false o pending with ⟨w, progress⟩
      rw [resumed, if_neg now] at waits
      cases waits
      rw [← Nat.add_assoc, Nat.add_right_comm] at due
      exact ih due

theorem endsFrom_run (h : p.Yields c store a) (still : Standstill store looks) (n : Nat)
    (w : World σ) (hw : w.core.store = store) : (w.run c false p).2.EndsFrom c looks n a := by
  induction h generalizing n w with
  | done a => exact ⟨0, rfl⟩
  | @op o next r a answers rest ih =>
    have sure := answers w hw
    have kept := (w.spares_start c false o).store
    simp only [World.run]
    rcases started : w.start c false o with ⟨w', r' | pending⟩
    · rw [started] at sure kept
      obtain rfl : r' = r := sure
      exact ih n w' (kept.trans hw)
    · rw [started] at sure
      obtain ⟨moment, sure⟩ := sure
      obtain ⟨m, later, due⟩ := still.onward moment n
      obtain ⟨distance, rfl⟩ := Nat.exists_eq_add_of_le later
      exact endsFrom_blocked still sure ih due

/-- The request ends with the value of its program. -/
theorem exists_finished (h : p.Yields c store a) (still : Standstill store looks) :
    ∃ n, ((TaskState.ready p).turns c ((List.range n).map fun i => (.own, looks i))).1 =
      .finished a := by
  have ended : (TaskState.ready p).EndsFrom c looks 0 a :=
    .before (h.endsFrom_run still 1 (looks 0) (still.store 0))
  obtain ⟨k, ended⟩ := ended
  exact ⟨k, List.range_eq_range' ▸ ended⟩

end Prog.Yields

end PolyglotLsp
