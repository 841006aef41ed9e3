import PolyglotLsp.Proofs.Session.Answers
import PolyglotLsp.Proofs.Session.Calls

/-!
# What operations leave alone

An operation that begins changes what listeners know, the records of waits and, if a list is
remembered, the cache of origins, and it spares the rest of the router (`World.spares_start`). A
turn of an operation that waits changes nothing but what listeners know (`World.apart_turn`). A part
of the router that is spared by both is the same after any turn of a request
(`Spared.session_turn`). So servers are registered by others, and each stands under its own name
(`Session.Reachable.oneEach`).
-/

namespace PolyglotLsp

variable {σ α : Type} {c : Collaborators σ}

/-- The routers of two worlds differ at most in what their listeners know. -/
def World.Apart (w w' : World σ) : Prop :=
  w'.core = { w.core with progress := w'.core.progress }

namespace World

variable {w w' w'' : World σ}

theorem Apart.rfl : w.Apart w := Eq.refl _

theorem Apart.trans (h : w.Apart w') (h' : w'.Apart w'') : w.Apart w'' := by
  unfold Apart at h h' ⊢
  rw [h', h]

theorem Apart.registry (h : w.Apart w') : w'.core.registry = w.core.registry := by rw [h]

theorem Apart.cache (h : w.Apart w') : w'.core.cache = w.core.cache := by rw [h]

theorem apart_takeNotes (server : String) (notes : List (Nat × ServerNote)) (w : World σ) :
    w.Apart (takeNotes server w notes).1 := by
  induction notes generalizing w with
  | nil => exact .rfl
  | cons n rest ih =>
    obtain ⟨moment, note⟩ := n
    simp only [takeNotes]
    split
    · have told : w.Apart { w with core := (w.core.serverNotification note.method
          note.params).1 } := Eq.refl _
      exact told.trans (ih _)
    · exact .rfl

theorem apart_launch (c : Collaborators σ) (w : World σ) (s : Server) (method : String)
    (params : Json) (timeout : Nat) : w.Apart (w.launch c s method params timeout).1 :=
  apart_takeNotes ..

theorem apart_depart {α : Type} (c : Collaborators σ) (method : String) (params : Json)
    (w : World σ) (server : String) (f : FanOut α) :
    w.Apart (w.depart c method params server f).1 := by
  unfold depart
  split
  · exact .rfl
  · next s _ => exact apart_launch c w s method params f.timeout

theorem apart_fly (shape : Shape) (flights : List Flight) (w : World σ) :
    w.Apart (fly shape w flights).1 := by
  induction flights generalizing w with
  | nil => exact .rfl
  | cons f rest ih =>
    have taken := apart_takeNotes f.server f.notes w
    simp only [fly]
    split
    · exact taken.trans (ih _)
    · exact taken.trans (ih _)

theorem apart_resume (w : World σ) (cancelled : Bool) (o : Op) (pending : o.Pending) :
    w.Apart (w.resume cancelled o pending).1 := by
  cases o with
  | classify | mapRanges | remapEdits | documentContext | synchronize => exact .rfl
  | askFirst shape | askAll shape | ask shape =>
    simp only [resume]
    split
    · exact .rfl
    · exact apart_fly shape _ w
  | _ => exact pending.elim

theorem apart_release (c : Collaborators σ) (w : World σ) (server : String) (o : Op)
    (pending : o.Pending) : w.Apart (w.release c server o pending).1 := by
  cases o with
  | askFirst _ _ _ params | askAll _ _ _ params | ask _ _ _ params =>
    cases params with
    | error => exact .rfl
    | ok => exact apart_depart ..
  | _ => exact .rfl

theorem apart_turn (c : Collaborators σ) (w : World σ) (cancelled : Bool) (o : Op)
    (pending : o.Pending) (turn : Turn) : w.Apart (w.turn c cancelled o pending turn).1 := by
  cases turn with
  | own => exact w.apart_resume cancelled o pending
  | release server => exact w.apart_release c server o pending

end World

/-- Beginning a wait concerns the records only. -/
theorem Synchronizer.timeout_rejects_begin (s : Synchronizer) (store : Store) (now : Nat)
    (expected : Int) (document : VirtualSnapshot) :
    (s.begin store now expected document).1.timeout = s.timeout ∧
      (s.begin store now expected document).1.rejects = s.rejects := by
  unfold begin
  split
  · exact ⟨rfl, rfl⟩
  · split
    · exact ⟨rfl, rfl⟩
    · dsimp only [request]
      split <;> exact ⟨rfl, rfl⟩

/-- What an operation does to the cache when it begins. -/
def Op.caches : Op → ContextCache → ContextCache
  | .remember context, cache => (cache.insert context).1
  | _, cache => cache

/-- What stays of a router when an operation begins: all but what listeners know, the list that is
remembered, and the records of waits. -/
structure Op.Spares (o : Op) (before after : Core) : Prop where
  store : after.store = before.store
  timeout : after.synchronizer.timeout = before.synchronizer.timeout
  rejects : after.synchronizer.rejects = before.synchronizer.rejects
  registry : after.registry = before.registry
  requestTimeout : after.requestTimeout = before.requestTimeout
  cache : after.cache = o.caches before.cache
  settings : after.settings = before.settings
  capabilities : after.capabilities = before.capabilities
  root : after.root = before.root

namespace World

theorem Apart.spares {w w' : World σ} {o : Op} (h : w.Apart w')
    (keeps : o.caches w.core.cache = w.core.cache) : o.Spares w.core w'.core := by
  constructor <;> rw [h]
  exact keeps.symm

theorem spares_start (c : Collaborators σ) (w : World σ) (cancelled : Bool) (o : Op) :
    o.Spares w.core (w.start c cancelled o).1.core := by
  cases o with
  | classify | mapRanges | remapEdits =>
    simp only [start]
    split
    · constructor <;> rfl
    · exact Apart.spares (apart_resume ..) (by rfl)
  | documentContext host =>
    simp only [start]
    split
    · constructor <;> rfl
    · exact Apart.spares (apart_resume ..) (by rfl)
  | synchronize expected document =>
    obtain ⟨timeout, rejects⟩ := w.core.synchronizer.timeout_rejects_begin w.core.store w.now
      expected document
    simp only [start]
    split
    · constructor <;> first | rfl | assumption
    · next wait _ =>
      have rest := Apart.spares (o := .synchronize expected document) (apart_resume
        { w with core := { w.core with synchronizer := (w.core.synchronizer.begin w.core.store
          w.now expected document).1 } } cancelled (.synchronize expected document) wait) rfl
      exact { rest with
        timeout := rest.timeout.trans timeout
        rejects := rest.rejects.trans rejects }
  | askFirst | askAll =>
    simp only [start]
    split
    · constructor <;> rfl
    · split
      · constructor <;> rfl
      · constructor <;> rfl
  | ask =>
    simp only [start]
    split
    · constructor <;> rfl
    · split
      · constructor <;> rfl
      · split
        · constructor <;> rfl
        · exact ((apart_launch ..).trans (apart_resume ..)).spares (by rfl)
  | _ => constructor <;> rfl

theorem registry_start (c : Collaborators σ) (w : World σ) (cancelled : Bool) (o : Op) :
    (w.start c cancelled o).1.core.registry = w.core.registry :=
  (w.spares_start c cancelled o).registry

theorem cache_start (c : Collaborators σ) (w : World σ) (cancelled : Bool) (o : Op) :
    (w.start c cancelled o).1.core.cache = o.caches w.core.cache :=
  (w.spares_start c cancelled o).cache

end World

/-- A part of the router's state that no operation changes. -/
structure Spared (c : Collaborators σ) {β : Type} (part : Core → β) : Prop where
  start : ∀ (w : World σ) cancelled o, part (w.start c cancelled o).1.core = part w.core
  apart : ∀ {w w' : World σ}, w.Apart w' → part w'.core = part w.core

namespace Spared

variable {β : Type} {part : Core → β}

theorem run (h : Spared c part) (cancelled : Bool) (p : Prog α) (w : World σ) :
    part (w.run c cancelled p).1.core = part w.core := by
  induction p generalizing w with
  | done a => rfl
  | op o next ih =>
    have started := h.start w cancelled o
    simp only [World.run]
    rcases hs : w.start c cancelled o with ⟨w', r | pending⟩ <;> rw [hs] at started
    · exact (ih r w').trans started
    · exact started

theorem poll (h : Spared c part) (cancelled : Bool) (turn : Turn) (state : TaskState α)
    (w : World σ) : part (w.poll c cancelled turn state).1.core = part w.core := by
  cases state with
  | ready p =>
    cases turn with
    | own => exact h.run cancelled p w
    | release server => rfl
  | blocked o pending next =>
    have turned := h.apart (w.apart_turn c cancelled o pending turn)
    simp only [World.poll]
    rcases hr : w.turn c cancelled o pending turn with ⟨w', r | pending'⟩ <;> rw [hr] at turned
    · exact (h.run cancelled (next r) w').trans turned
    · exact turned
  | finished a => rfl

theorem session_turn (h : Spared c part) (s : Session σ α) (place : Nat) (turn : Turn) :
    part (s.turn c place turn).world.core = part s.world.core := by
  simp only [Session.turn]
  split
  · rfl
  · next t _ =>
    dsimp only
    rw [(t.turn_erase c s.edits turn s.world).1]
    exact h.poll ..

theorem registry (c : Collaborators σ) : Spared c Core.registry :=
  ⟨fun w => w.registry_start c, World.Apart.registry⟩

end Spared

theorem Core.oneEach_change {core : Core} (h : core.registry.OneEach) (k : Change) :
    (core.change k).1.registry.OneEach := by
  cases k with
  | registered s => exact h.register s
  | unregistered name => exact h.unregister name
  | told | started | configured | shutDown | syncTimeout | syncRejects | requestTimeout => exact h
  | _ =>
    rw [core.change_of_documents rfl]
    exact h

namespace Session

variable {s : Session σ α}

/-- A change of the router, and what servers are told of it. -/
theorem world_changed (c : Collaborators σ) (s : Session σ α) (k : Change) :
    (s.change c k).world =
      { s.world with
        core := (s.world.core.change k).1
        traffic := s.world.traffic ++ (s.world.core.change k).2.flatMap
          (·.deliveries (s.world.core.change k).1.registry) } :=
  World.notify_eq c { s.world with core := (s.world.core.change k).1 } _

/-- In every session, servers are registered under their names. -/
theorem Reachable.oneEach (h : s.Reachable c) : s.world.core.registry.OneEach := by
  induction h with
  | new outside => exact Registry.oneEach_ofServers []
  | @step s h e ih =>
    cases e with
    | changed k =>
      have changed := Core.oneEach_change ih k
      rw [Session.step, world_changed]
      exact changed
    | elsewhere | spawned | cancelled | dropped | listened | clock => exact ih
    | polled | released =>
      rw [Session.step, (Spared.registry c).session_turn]
      exact ih

end Session

end PolyglotLsp
