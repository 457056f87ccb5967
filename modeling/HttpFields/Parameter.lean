import HttpFields.Quoted

/-!
# `HttpFields.Parameter` — named parameters

A parameter is a name, an equals sign and a value that is a token or a quoted string. A field's parameters form a
finite map from names to decoded values, which a later parameter of the same name overrides and which is written in
ascending order of the names, character by character.

* `Parameter.read?` — name and decoded value of one written parameter.
* `Parameters` — the map; its entries are strictly ascending by name.
* `Parameters.get?_insert`, `Parameters.get?_ofList` — the last parameter of a name gives its value.
* `Parameters.ext_get?` — the map is determined by its lookups.
-/

namespace HttpFields

/-! ## One parameter -/

namespace Parameter

/-- The name before the first equals sign and the value after it, without the blanks around the sign and with the
    value decoded. -/
def read? (s : Text) : Option (Text × Text) :=
  (s.cutAt? '=').map fun (name, value) => (name.dropBlanksEnd, Quoted.decode value.dropBlanks)

/-- A parameter with its value quoted if it has to be. -/
def write (name value : Text) : Text := name ++ '=' :: Quoted.encodeIfNeeded value

end Parameter

/-! ## The map of parameters -/

/-- Parameters by name. The entries ascend strictly by name, so equal maps have equal entries. -/
structure Parameters where
  entries : List (Text × Text)
  ascending : entries.Pairwise (·.1 < ·.1)
  deriving DecidableEq

namespace Parameters

/-- No parameters. -/
def empty : Parameters := ⟨[], .nil⟩

instance : Inhabited Parameters := ⟨empty⟩

/-- Ascending entries with the given name bound to the given value. -/
def insertEntry (name value : Text) : List (Text × Text) → List (Text × Text)
  | [] => [(name, value)]
  | (n, v) :: entries =>
    if name < n then (name, value) :: (n, v) :: entries
    else if name = n then (name, value) :: entries
    else (n, v) :: insertEntry name value entries

theorem mem_insertEntry {name value : Text} {p : Text × Text} {entries : List (Text × Text)}
    (h : p ∈ insertEntry name value entries) : p = (name, value) ∨ p ∈ entries := by
  induction entries with
  | nil => simpa [insertEntry] using h
  | cons e entries ih =>
    obtain ⟨n, v⟩ := e
    unfold insertEntry at h
    split at h
    · simpa using h
    · split at h
      · rcases List.mem_cons.1 h with h | h
        · exact .inl h
        · exact .inr (List.mem_cons_of_mem _ h)
      · rcases List.mem_cons.1 h with h | h
        · exact .inr (h ▸ List.mem_cons_self)
        · exact (ih h).imp id (List.mem_cons_of_mem _)

theorem pairwise_insertEntry {name value : Text} {entries : List (Text × Text)}
    (h : entries.Pairwise (·.1 < ·.1)) : (insertEntry name value entries).Pairwise (·.1 < ·.1) := by
  induction entries with
  | nil => simp [insertEntry]
  | cons e entries ih =>
    obtain ⟨n, v⟩ := e
    have ⟨hn, hrest⟩ := List.pairwise_cons.1 h
    unfold insertEntry
    split
    · rename_i hlt
      refine List.pairwise_cons.2 ⟨fun p hp => ?_, h⟩
      rcases List.mem_cons.1 hp with rfl | hp
      · exact hlt
      · exact List.lt_trans hlt (hn p hp)
    · split
      · rename_i heq
        subst heq
        exact List.pairwise_cons.2 ⟨hn, hrest⟩
      · rename_i hlt hne
        refine List.pairwise_cons.2 ⟨fun p hp => ?_, ih hrest⟩
        rcases mem_insertEntry hp with rfl | hp
        · exact (Std.Trichotomous.rel_or_eq_or_rel_swap : n < name ∨ n = name ∨ name < n).elim id
            fun h => h.elim (fun e => absurd e.symm hne) fun h => absurd h hlt
        · exact hn p hp

/-- The map with the given name bound to the given value, in place of any value it had. -/
def insert (p : Parameters) (name value : Text) : Parameters :=
  ⟨insertEntry name value p.entries, pairwise_insertEntry p.ascending⟩

/-- The map of parameters in the order they were given: a later one overrides an earlier one of the same name. -/
def ofList (given : List (Text × Text)) : Parameters :=
  given.foldl (fun p (name, value) => p.insert name value) empty

/-- The value of a name. -/
def get? (p : Parameters) (name : Text) : Option Text := p.entries.lookup name

/-- Whether there are no parameters. -/
def isEmpty (p : Parameters) : Bool := p.entries.isEmpty

/-! ## Lookups -/

@[simp] theorem get?_empty (name : Text) : empty.get? name = none := rfl

private theorem lookup_entry (n name value : Text) (entries : List (Text × Text)) :
    ((name, value) :: entries).lookup n = if n = name then some value else entries.lookup n := by
  by_cases h : n = name
  · subst h; simp
  · rw [List.lookup_cons, beq_eq_false_iff_ne.2 h, if_neg h]

private theorem lookup_insertEntry (name value n : Text) (entries : List (Text × Text)) :
    (insertEntry name value entries).lookup n = if n = name then some value else entries.lookup n := by
  induction entries with
  | nil => exact lookup_entry n name value []
  | cons e entries ih =>
    obtain ⟨m, v⟩ := e
    unfold insertEntry
    split
    · exact lookup_entry n name value _
    · split
      · rename_i heq
        subst heq
        rw [lookup_entry, lookup_entry]
        split <;> rfl
      · rename_i hne
        rw [lookup_entry, ih, lookup_entry]
        by_cases h : n = name
        · subst h
          rw [if_neg hne, if_pos rfl, if_pos rfl]
        · rw [if_neg h, if_neg h]

/-- **The last one wins.** After an insertion a name has the inserted value, and every other name the value it
    had. -/
theorem get?_insert (p : Parameters) (name value n : Text) :
    (p.insert name value).get? n = if n = name then some value else p.get? n :=
  lookup_insertEntry name value n p.entries

private theorem get?_foldl (given : List (Text × Text)) (p : Parameters) (name : Text) :
    (given.foldl (fun p (q : Text × Text) => p.insert q.1 q.2) p).get? name =
      (given.reverse.lookup name).or (p.get? name) := by
  induction given generalizing p with
  | nil => simp
  | cons e given ih =>
    rw [List.foldl_cons, ih, List.reverse_cons, List.lookup_append, get?_insert, Option.or_assoc]
    obtain ⟨n, v⟩ := e
    rw [lookup_entry]
    by_cases h : name = n <;> simp [h]

/-- The value of a name in the map of given parameters is that of the last parameter given with this name. -/
theorem get?_ofList (given : List (Text × Text)) (name : Text) :
    (ofList given).get? name = given.reverse.lookup name := by
  rw [ofList, get?_foldl, get?_empty, Option.or_none]

theorem lookup_eq_some_iff_mem {entries : List (Text × Text)} (h : entries.Pairwise (·.1 < ·.1))
    {name value : Text} : entries.lookup name = some value ↔ (name, value) ∈ entries := by
  induction entries with
  | nil => simp
  | cons e entries ih =>
    obtain ⟨n, v⟩ := e
    have ⟨hn, hrest⟩ := List.pairwise_cons.1 h
    rw [lookup_entry]
    by_cases heq : name = n
    · subst heq
      simp only [if_true, Option.some.injEq, List.mem_cons, Prod.mk.injEq, true_and]
      constructor
      · exact fun h => .inl h.symm
      · rintro (h | h)
        · exact h.symm
        · exact absurd (hn _ h) (List.lt_irrefl _)
    · simp [heq, ih hrest]

/-- An entry of the map is a name with its value. -/
theorem mem_entries_iff {p : Parameters} {name value : Text} :
    (name, value) ∈ p.entries ↔ p.get? name = some value :=
  (lookup_eq_some_iff_mem p.ascending).symm

/-- **Extensionality.** Two maps with the same lookups are equal. -/
theorem ext_get? {p q : Parameters} (h : ∀ name, p.get? name = q.get? name) : p = q := by
  obtain ⟨ps, hp⟩ := p
  obtain ⟨qs, hq⟩ := q
  have hmem : ∀ e, e ∈ ps ↔ e ∈ qs := fun (n, v) => by
    have := h n
    simp only [get?] at this
    rw [← lookup_eq_some_iff_mem hp, ← lookup_eq_some_iff_mem hq, this]
  suffices ps = qs by subst this; rfl
  clear h
  induction ps generalizing qs with
  | nil =>
    cases qs with
    | nil => rfl
    | cons e qs => exact absurd ((hmem e).2 List.mem_cons_self) List.not_mem_nil
  | cons a ps ih =>
    cases qs with
    | nil => exact absurd ((hmem a).1 List.mem_cons_self) List.not_mem_nil
    | cons b qs =>
      have ⟨ha, hps⟩ := List.pairwise_cons.1 hp
      have ⟨hb, hqs⟩ := List.pairwise_cons.1 hq
      have hab : a = b := by
        rcases List.mem_cons.1 ((hmem a).1 List.mem_cons_self) with h | h
        · exact h
        · rcases List.mem_cons.1 ((hmem b).2 List.mem_cons_self) with h' | h'
          · exact h'.symm
          · exact absurd (List.lt_trans (hb a h) (ha b h')) (List.lt_irrefl _)
      subst hab
      have htail : ∀ e, e ∈ ps ↔ e ∈ qs := fun e => by
        constructor
        · intro he
          rcases List.mem_cons.1 ((hmem e).1 (List.mem_cons_of_mem _ he)) with rfl | h
          · exact absurd (ha e he) (List.lt_irrefl _)
          · exact h
        · intro he
          rcases List.mem_cons.1 ((hmem e).2 (List.mem_cons_of_mem _ he)) with rfl | h
          · exact absurd (hb e he) (List.lt_irrefl _)
          · exact h
      rw [ih hps qs hqs htail]

end Parameters

end HttpFields
