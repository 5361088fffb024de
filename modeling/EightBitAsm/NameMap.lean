/-!
Finite maps from names to values. The entries are kept in strictly increasing order of their names,
which for texts is the order of their UTF-8 bytes, so two maps with the same look-ups are equal.
-/

namespace EightBitAsm

structure NameMap (α : Type) where
  entries : List (String × α)
  sorted : entries.Pairwise fun a b => a.1 < b.1
  deriving DecidableEq, Repr

namespace NameMap

variable {α : Type}

def empty : NameMap α := ⟨[], .nil⟩

instance : Inhabited (NameMap α) := ⟨empty⟩

/-- Puts an entry in its place, over an older entry of the same name. -/
def insertEntry (name : String) (value : α) : List (String × α) → List (String × α)
  | [] => [(name, value)]
  | e :: es =>
    if name < e.1 then (name, value) :: e :: es
    else if name = e.1 then (name, value) :: es
    else e :: insertEntry name value es

theorem mem_insertEntry {name : String} {value : α} {es : List (String × α)} {e : String × α}
    (h : e ∈ insertEntry name value es) : e = (name, value) ∨ e ∈ es := by
  induction es with
  | nil => simpa [insertEntry] using h
  | cons d ds ih =>
    unfold insertEntry at h
    split at h
    · simpa using h
    · split at h
      · rcases List.mem_cons.1 h with h | h
        · exact .inl h
        · exact .inr (List.mem_cons_of_mem _ h)
      · rcases List.mem_cons.1 h with h | h
        · exact .inr (h ▸ List.mem_cons_self)
        · rcases ih h with h | h
          · exact .inl h
          · exact .inr (List.mem_cons_of_mem _ h)

theorem lt_of_not_lt_of_ne {a b : String} (h : ¬ a < b) (hne : a ≠ b) : b < a := by
  rcases Std.le_total (a := a) (b := b) with hle | hle
  · exact absurd (Std.lt_of_le_of_ne hle hne) h
  · exact Std.lt_of_le_of_ne hle (Ne.symm hne)

theorem pairwise_insertEntry (name : String) (value : α) {es : List (String × α)}
    (h : es.Pairwise fun a b => a.1 < b.1) :
    (insertEntry name value es).Pairwise fun a b => a.1 < b.1 := by
  induction es with
  | nil => simp [insertEntry]
  | cons d ds ih =>
    obtain ⟨hd, hds⟩ := List.pairwise_cons.1 h
    unfold insertEntry
    split
    · next hlt =>
      refine List.pairwise_cons.2 ⟨fun e he => ?_, h⟩
      rcases List.mem_cons.1 he with rfl | he
      · exact hlt
      · exact String.lt_trans hlt (hd e he)
    · next hlt =>
      split
      · next heq =>
        subst heq
        exact List.pairwise_cons.2 ⟨hd, hds⟩
      · next hne =>
        refine List.pairwise_cons.2 ⟨fun e he => ?_, ih hds⟩
        rcases mem_insertEntry he with rfl | he
        · exact lt_of_not_lt_of_ne hlt hne
        · exact hd e he

def insert (m : NameMap α) (name : String) (value : α) : NameMap α :=
  ⟨insertEntry name value m.entries, pairwise_insertEntry name value m.sorted⟩

def valueOf? (name : String) : List (String × α) → Option α
  | [] => none
  | e :: es => if name = e.1 then some e.2 else valueOf? name es

def find? (m : NameMap α) (name : String) : Option α :=
  valueOf? name m.entries

def contains (m : NameMap α) (name : String) : Bool :=
  (m.find? name).isSome

def names (m : NameMap α) : List String :=
  m.entries.map (·.1)

def size (m : NameMap α) : Nat :=
  m.entries.length

/-- Later entries win over earlier ones of the same name. -/
def ofList (es : List (String × α)) : NameMap α :=
  es.foldl (fun m e => m.insert e.1 e.2) empty

@[simp] theorem find?_empty (name : String) : (empty : NameMap α).find? name = none := rfl

theorem valueOf?_insertEntry (name other : String) (value : α) (es : List (String × α)) :
    valueOf? other (insertEntry name value es) =
      if other = name then some value else valueOf? other es := by
  induction es with
  | nil => rfl
  | cons d ds ih =>
    unfold insertEntry
    split
    · simp [valueOf?]
    · split
      · next heq => by_cases h : other = name <;> simp [valueOf?, ← heq, h]
      · next hne =>
        by_cases h : other = name
        · subst h
          simp [valueOf?, hne, ih]
        · simp [valueOf?, ih, h]

theorem find?_insert (m : NameMap α) (name other : String) (value : α) :
    (m.insert name value).find? other = if other = name then some value else m.find? other :=
  valueOf?_insertEntry name other value m.entries

theorem valueOf?_eq_none_of_lt {name : String} {es : List (String × α)}
    (h : ∀ e ∈ es, name < e.1) : valueOf? name es = none := by
  induction es with
  | nil => rfl
  | cons d ds ih =>
    have hne : name ≠ d.1 := by
      intro heq
      have hlt := h d List.mem_cons_self
      rw [heq] at hlt
      exact String.lt_irrefl _ hlt
    simp [valueOf?, hne, ih fun e he => h e (List.mem_cons_of_mem _ he)]

theorem valueOf?_eq_some_iff {name : String} {value : α} {es : List (String × α)}
    (hs : es.Pairwise fun a b => a.1 ≠ b.1) :
    valueOf? name es = some value ↔ (name, value) ∈ es := by
  induction es with
  | nil => simp [valueOf?]
  | cons d ds ih =>
    obtain ⟨hd, hds⟩ := List.pairwise_cons.1 hs
    by_cases h : name = d.1
    · subst h
      constructor
      · intro hv
        have : d.2 = value := by simpa [valueOf?] using hv
        exact this ▸ List.mem_cons_self
      · intro hm
        rcases List.mem_cons.1 hm with heq | hm
        · have : d.2 = value := (congrArg Prod.snd heq).symm
          simp [valueOf?, this]
        · exact absurd rfl (hd (d.1, value) hm)
    · have hne : (name, value) ≠ d := fun heq => h (congrArg Prod.fst heq)
      simp [valueOf?, h, hne, ih hds]

theorem pairwise_ne (m : NameMap α) : m.entries.Pairwise fun a b => a.1 ≠ b.1 := by
  refine m.sorted.imp ?_
  intro a b hlt heq
  rw [heq] at hlt
  exact String.lt_irrefl _ hlt

theorem find?_eq_some_iff {m : NameMap α} {name : String} {value : α} :
    m.find? name = some value ↔ (name, value) ∈ m.entries :=
  valueOf?_eq_some_iff m.pairwise_ne

theorem mem_names_iff {m : NameMap α} {name : String} :
    name ∈ m.names ↔ m.contains name = true := by
  rw [contains, Option.isSome_iff_exists]
  simp [names, find?_eq_some_iff]

theorem mem_names_insert {m : NameMap α} {name other : String} {value : α} :
    other ∈ (m.insert name value).names ↔ other = name ∨ other ∈ m.names := by
  rw [mem_names_iff, mem_names_iff, contains, contains, find?_insert]
  split
  · next h => simp [h]
  · next h => simp [h]

theorem eq_of_entries_eq {m n : NameMap α} (h : m.entries = n.entries) : m = n := by
  cases m
  cases n
  cases h
  rfl

theorem entries_eq_of_valueOf? {es fs : List (String × α)}
    (hes : es.Pairwise fun a b => a.1 < b.1) (hfs : fs.Pairwise fun a b => a.1 < b.1)
    (h : ∀ name, valueOf? name es = valueOf? name fs) : es = fs := by
  induction es generalizing fs with
  | nil =>
    cases fs with
    | nil => rfl
    | cons f fs => simpa [valueOf?] using h f.1
  | cons e es ih =>
    cases fs with
    | nil => simpa [valueOf?] using h e.1
    | cons f fs =>
      obtain ⟨he, hes⟩ := List.pairwise_cons.1 hes
      obtain ⟨hf, hfs⟩ := List.pairwise_cons.1 hfs
      have hname : e.1 = f.1 := by
        apply Decidable.byContradiction
        intro hne
        by_cases hlt : e.1 < f.1
        · have hnone : valueOf? e.1 fs = none :=
            valueOf?_eq_none_of_lt fun d hd => String.lt_trans hlt (hf d hd)
          simpa [valueOf?, hne, hnone] using h e.1
        · have hlt : f.1 < e.1 := lt_of_not_lt_of_ne hlt hne
          have hnone : valueOf? f.1 es = none :=
            valueOf?_eq_none_of_lt fun d hd => String.lt_trans hlt (he d hd)
          simpa [valueOf?, Ne.symm hne, hnone] using h f.1
      have hvalue : e.2 = f.2 := by simpa [valueOf?, hname] using h e.1
      have htail : es = fs := by
        refine ih hes hfs fun name => ?_
        by_cases heq : name = e.1
        · subst heq
          rw [valueOf?_eq_none_of_lt he, valueOf?_eq_none_of_lt (hname ▸ hf)]
        · simpa [valueOf?, heq, hname ▸ heq] using h name
      rw [Prod.ext hname hvalue, htail]

theorem ext_find? {m n : NameMap α} (h : ∀ name, m.find? name = n.find? name) : m = n := by
  apply eq_of_entries_eq
  exact entries_eq_of_valueOf? m.sorted n.sorted h

theorem find?_foldl_insert {es : List (String × α)} (hs : es.Pairwise fun a b => a.1 ≠ b.1)
    (m : NameMap α) (name : String) :
    (es.foldl (fun m e => m.insert e.1 e.2) m).find? name =
      (valueOf? name es).or (m.find? name) := by
  induction es generalizing m with
  | nil => rfl
  | cons e es ih =>
    obtain ⟨hfresh, hes⟩ := List.pairwise_cons.1 hs
    rw [List.foldl_cons, ih hes, find?_insert]
    by_cases h : name = e.1
    · subst h
      have hnone : valueOf? e.1 es = none := by
        apply Option.eq_none_iff_forall_ne_some.2
        intro value hv
        exact hfresh _ ((valueOf?_eq_some_iff hes).1 hv) rfl
      simp [valueOf?, hnone]
    · simp [valueOf?, h]

/-- The entries of a map make up the map, in whatever order they are added. -/
theorem ofList_of_perm {es : List (String × α)} {m : NameMap α} (h : es.Perm m.entries) :
    ofList es = m := by
  have hes : es.Pairwise fun a b => a.1 ≠ b.1 := (h.pairwise_iff Ne.symm).2 m.pairwise_ne
  apply ext_find?
  intro name
  rw [ofList, find?_foldl_insert hes, find?_empty, Option.or_none]
  apply Option.ext
  intro value
  rw [valueOf?_eq_some_iff hes, find?_eq_some_iff, h.mem_iff]

end NameMap

end EightBitAsm
