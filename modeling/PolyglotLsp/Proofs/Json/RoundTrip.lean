import PolyglotLsp.Json.Decode

/-!
# Values that are read as they were written

A type of the wire has a function that writes its values and one that reads them. `RoundTrip` says
that the two agree on the valid values and that nothing else is ever read; so a value is read as it
was written exactly if it is valid (`RoundTrip.read_write_iff`). Numbers are valid within the limits
of their words (`RoundTrip.int32`, `RoundTrip.uint32`, `RoundTrip.uint64`), optional values and
lists if what they hold is (`RoundTrip.option`, `RoundTrip.list`). An optional value is written as
`null` or left out, which comes to the same for the reader (`get_object_optField`).
-/

namespace PolyglotLsp.Json

variable {α : Type} {write : α → Json} {read : Json → Option α} {Valid : α → Prop}

/-- The valid values are read as they were written, and only valid values are read. -/
structure RoundTrip (write : α → Json) (read : Json → Option α) (Valid : α → Prop) : Prop where
  read_write : ∀ {a}, Valid a → read (write a) = some a
  valid_of_read : ∀ {j a}, read j = some a → Valid a

/-- The integers of 32 bits with a sign. -/
def IsInt32 (n : Int) : Prop := -2147483648 ≤ n ∧ n < 2147483648

namespace RoundTrip

theorem read_write_iff (h : RoundTrip write read Valid) {a : α} :
    read (write a) = some a ↔ Valid a :=
  ⟨h.valid_of_read, h.read_write⟩

theorem string : RoundTrip str asString? fun _ => True := ⟨fun _ => rfl, fun _ => trivial⟩

theorem int32 : RoundTrip int asInt32? IsInt32 := by
  constructor
  · intro n h
    exact if_pos ⟨h.1, Int.le_of_lt_add_one h.2⟩
  · intro j n h
    obtain ⟨m, -, h⟩ := Option.bind_eq_some_iff.1 h
    split at h
    · next range =>
      cases h
      exact ⟨range.1, Int.lt_add_one_of_le range.2⟩
    · cases h

/-- Natural numbers below a limit. -/
theorem below (limit : Nat) :
    RoundTrip nat (fun j => do
      let n ← j.asNat?
      if n < limit then some n else none) (· < limit) := by
  constructor
  · intro n h
    exact if_pos h
  · intro j n h
    obtain ⟨m, -, h⟩ := Option.bind_eq_some_iff.1 h
    split at h
    · next small =>
      cases h
      exact small
    · cases h

theorem uint32 : RoundTrip nat asUInt32? (· < 4294967296) := below _

theorem uint64 : RoundTrip nat asUInt64? (· < 18446744073709551616) := below _

/-- A reader that refuses `null` leaves it to the absent value. -/
theorem option (h : RoundTrip write read Valid) (refuses : read null = none) :
    RoundTrip (ofOption write) (maybe read) fun o => ∀ a ∈ o, Valid a := by
  constructor
  · intro o valid
    cases o with
    | none => rfl
    | some a =>
      have back := h.read_write (valid a rfl)
      show maybe read (write a) = some (some a)
      unfold maybe
      split
      · next written =>
        rw [written, refuses] at back
        cases back
      · rw [back]
        rfl
  · intro j o ho a ha
    obtain rfl := ha
    unfold maybe at ho
    split at ho
    · cases ho
    · obtain ⟨b, hb, same⟩ := Option.map_eq_some_iff.1 ho
      cases same
      exact h.valid_of_read hb

theorem list (h : RoundTrip write read Valid) :
    RoundTrip (list write) (listOf read) fun items => ∀ a ∈ items, Valid a := by
  constructor
  · intro items valid
    show (items.map write).mapM read = some items
    induction items with
    | nil => rfl
    | cons a items ih =>
      obtain ⟨ha, rest⟩ := List.forall_mem_cons.1 valid
      rw [List.map_cons, List.mapM_cons, h.read_write ha, ih rest]
      rfl
  · intro j items hj
    obtain ⟨written, -, hw⟩ := Option.bind_eq_some_iff.1 hj
    clear hj
    induction written generalizing items with
    | nil =>
      cases hw
      exact nofun
    | cons j written ih =>
      rw [List.mapM_cons] at hw
      obtain ⟨a, ha, hw⟩ := Option.bind_eq_some_iff.1 hw
      obtain ⟨rest, hr, hw⟩ := Option.bind_eq_some_iff.1 hw
      cases hw
      exact List.forall_mem_cons.2 ⟨h.valid_of_read ha, ih hr⟩

/-- A value of any kind is kept as it is, but `null` cannot be told from an absent one. -/
theorem any : RoundTrip (ofOption id) (maybe any?) (· ≠ some null) := by
  constructor
  · intro o valid
    cases o with
    | none => rfl
    | some j =>
      cases j with
      | null => exact absurd rfl valid
      | _ => rfl
  · intro j o ho
    unfold maybe at ho
    split at ho
    · cases ho
      exact nofun
    · next other =>
      cases ho
      simpa using other

end RoundTrip

/-! ## Members of a written object -/

section Members

variable {key key' : String} {value : Json} {members : List (String × Json)}
  {others : List (Option (String × Json))} {names : List String}

@[simp] theorem get_obj_nil : (obj []).get key = null := rfl

@[simp] theorem get_obj_cons :
    (obj ((key', value) :: members)).get key =
      if key = key' then value else (obj members).get key := by
  by_cases h : key = key'
  · simp [get, h]
  · simp [get, List.lookup_cons, h, beq_eq_false_iff_ne.2 h]

@[simp] theorem has_obj_cons :
    (obj ((key', value) :: members)).has key = (key == key' || (obj members).has key) := by
  by_cases h : key = key'
  · simp [has, h]
  · simp [has, List.lookup_cons, beq_eq_false_iff_ne.2 h]

@[simp] theorem get_object_nil : (object []).get key = null := rfl

@[simp] theorem get_object_field :
    (object (field key' value :: others)).get key =
      if key = key' then value else (object others).get key :=
  get_obj_cons

/-- A member that is left out reads as one that is `null` if no other has its key. -/
@[simp] theorem get_object_optField {o : Option α} :
    (object (optField key' write o :: others)).get key =
      if key = key' then o.elim ((object others).get key) write else (object others).get key := by
  cases o with
  | none => simp [object, optField]
  | some a => exact get_object_field

@[simp] theorem elim_null (o : Option α) : o.elim null write = ofOption write o := by
  cases o <;> rfl

@[simp] theorem record?_obj : record? names (obj members) = some (obj members) := rfl

@[simp] theorem record?_object : record? names (object others) = some (object others) := rfl

@[simp] theorem partialRecord?_obj : partialRecord? names (obj members) = some (obj members) := rfl

@[simp] theorem partialRecord?_object :
    partialRecord? names (object others) = some (object others) := rfl

end Members

end PolyglotLsp.Json
