/-!
# Finite tables

A table is a list of keys with their values in which a later look-up finds the first entry of its
key. `set` keeps at most one entry per key and adds new keys at the end.
-/

namespace PolyglotLsp

/-- Keys with their values. -/
abbrev Table (κ β : Type) := List (κ × β)

namespace Table

variable {κ β : Type} [DecidableEq κ]

def get? (t : Table κ β) (k : κ) : Option β :=
  match t with
  | [] => none
  | (k', v) :: rest => if k' = k then some v else get? rest k

def set (t : Table κ β) (k : κ) (v : β) : Table κ β :=
  match t with
  | [] => [(k, v)]
  | (k', v') :: rest => if k' = k then (k, v) :: rest else (k', v') :: set rest k v

def erase (t : Table κ β) (k : κ) : Table κ β := t.filter fun e => e.1 ≠ k

@[simp] theorem get?_nil (k : κ) : get? ([] : Table κ β) k = none := rfl

theorem get?_set (t : Table κ β) (k k' : κ) (v : β) :
    (t.set k v).get? k' = if k = k' then some v else t.get? k' := by
  induction t with
  | nil => simp [set, get?]
  | cons e rest ih =>
    obtain ⟨key, value⟩ := e
    by_cases h : key = k
    · subst h
      by_cases h' : key = k' <;> simp [set, get?, h']
    · by_cases h' : key = k'
      · subst h'
        simp [set, get?, h, Ne.symm h]
      · simp [set, get?, h, h', ih]

theorem get?_erase (t : Table κ β) (k k' : κ) :
    (t.erase k).get? k' = if k = k' then none else t.get? k' := by
  induction t with
  | nil => simp [erase, get?]
  | cons e rest ih =>
    obtain ⟨key, value⟩ := e
    unfold erase at ih ⊢
    by_cases h : key = k
    · subst h
      by_cases h' : key = k' <;> simp_all [get?]
    · by_cases h' : key = k'
      · subst h'
        simp [get?, h, Ne.symm h]
      · simp_all [get?]

theorem mem_of_get? {t : Table κ β} {k : κ} {v : β} (h : t.get? k = some v) : (k, v) ∈ t := by
  induction t with
  | nil => cases h
  | cons e rest ih =>
    obtain ⟨key, value⟩ := e
    by_cases hk : key = k
    · simp only [get?, hk, ↓reduceIte, Option.some.injEq] at h
      simp [hk, h]
    · simp only [get?, hk, ↓reduceIte] at h
      exact List.mem_cons_of_mem _ (ih h)

theorem mem_set {t : Table κ β} {k : κ} {v : β} {e : κ × β} (h : e ∈ t.set k v) :
    e = (k, v) ∨ e ∈ t := by
  induction t with
  | nil => exact .inl (List.mem_singleton.1 h)
  | cons e' rest ih =>
    obtain ⟨key, value⟩ := e'
    by_cases hk : key = k
    · simp only [set, hk, ↓reduceIte, List.mem_cons] at h
      exact h.imp_right (List.mem_cons_of_mem _)
    · simp only [set, hk, ↓reduceIte, List.mem_cons] at h
      rcases h with rfl | h
      · exact .inr (List.mem_cons_self ..)
      · exact (ih h).imp_right (List.mem_cons_of_mem _)

theorem mem_erase {t : Table κ β} {k : κ} {e : κ × β} (h : e ∈ t.erase k) : e ∈ t :=
  (List.mem_filter.1 h).1

/-! ## One entry per key -/

theorem keys_set_subset {t : Table κ β} {k : κ} {v : β} {k' : κ}
    (h : k' ∈ (t.set k v).map (·.1)) : k' = k ∨ k' ∈ t.map (·.1) := by
  obtain ⟨e, he, rfl⟩ := List.mem_map.1 h
  rcases mem_set he with rfl | he
  · exact .inl rfl
  · exact .inr (List.mem_map_of_mem he)

theorem nodup_keys_set {t : Table κ β} (h : (t.map (·.1)).Nodup) (k : κ) (v : β) :
    ((t.set k v).map (·.1)).Nodup := by
  induction t with
  | nil => simp [set]
  | cons e rest ih =>
    obtain ⟨key, value⟩ := e
    rw [List.map_cons, List.nodup_cons] at h
    by_cases hk : key = k
    · subst hk
      simp only [set, ↓reduceIte, List.map_cons, List.nodup_cons]
      exact h
    · simp only [set, hk, ↓reduceIte, List.map_cons, List.nodup_cons]
      refine ⟨fun hm => ?_, ih h.2⟩
      rcases keys_set_subset hm with he | hm
      · exact hk he
      · exact h.1 hm

theorem nodup_keys_erase {t : Table κ β} (h : (t.map (·.1)).Nodup) (k : κ) :
    ((t.erase k).map (·.1)).Nodup :=
  h.sublist (List.filter_sublist.map _)

/-- With one entry per key, every entry is found. -/
theorem get?_of_mem {t : Table κ β} (h : (t.map (·.1)).Nodup) {k : κ} {v : β} (hm : (k, v) ∈ t) :
    t.get? k = some v := by
  induction t with
  | nil => cases hm
  | cons e rest ih =>
    obtain ⟨key, value⟩ := e
    rw [List.map_cons, List.nodup_cons] at h
    rcases List.mem_cons.1 hm with he | hm
    · cases he
      simp [get?]
    · have key_mem : k ∈ rest.map (·.1) := List.mem_map.2 ⟨(k, v), hm, rfl⟩
      have hne : key ≠ k := fun hk => h.1 (hk ▸ key_mem)
      simp [get?, hne, ih h.2 hm]

/-! ## Several keys at once -/

section Several

variable {ι : Type}

theorem get?_foldl_erase (key : ι → κ) (items : List ι) (t : Table κ β) (k : κ) :
    (items.foldl (fun t i => t.erase (key i)) t).get? k =
      if k ∈ items.map key then none else t.get? k := by
  induction items generalizing t with
  | nil => simp
  | cons i items ih =>
    rw [List.foldl_cons, ih, get?_erase, List.map_cons]
    by_cases later : k ∈ items.map key
    · simp [later]
    · by_cases first : key i = k
      · simp [later, first]
      · simp [later, first, Ne.symm first]

theorem get?_foldl_set_of_not_mem (key : ι → κ) (value : ι → β) {items : List ι} {k : κ}
    (h : k ∉ items.map key) (t : Table κ β) :
    (items.foldl (fun t i => t.set (key i) (value i)) t).get? k = t.get? k := by
  induction items generalizing t with
  | nil => rfl
  | cons i items ih =>
    simp only [List.map_cons, List.mem_cons, not_or] at h
    rw [List.foldl_cons, ih h.2, get?_set, if_neg (Ne.symm h.1)]

/-- Entering several values under different keys. -/
theorem get?_foldl_set_of_mem (key : ι → κ) (value : ι → β) {items : List ι}
    (distinct : (items.map key).Nodup) {i : ι} (h : i ∈ items) (t : Table κ β) :
    (items.foldl (fun t i => t.set (key i) (value i)) t).get? (key i) = some (value i) := by
  induction items generalizing t with
  | nil => cases h
  | cons j items ih =>
    rw [List.map_cons, List.nodup_cons] at distinct
    rw [List.foldl_cons]
    rcases List.mem_cons.1 h with rfl | h
    · rw [get?_foldl_set_of_not_mem key value distinct.1, get?_set, if_pos rfl]
    · exact ih distinct.2 h _

end Several

end Table

end PolyglotLsp
