/-!
Finite maps with string keys. A map is the list of its pairs in strictly increasing key order; the
order of strings by code point is also the order of their encoded bytes. `get?` is the view of a
map: each operation says what it does to it, and a sorted map is fixed by it.
-/

namespace ResourceModels

/-- Pairs of a key and a value, held in increasing key order by the operations below. -/
abbrev Dict (α : Type u) := List (String × α)

namespace Dict

def get? (d : Dict α) (key : String) : Option α :=
  match d with
  | [] => none
  | (k, v) :: rest => if k = key then some v else get? rest key

def contains (d : Dict α) (key : String) : Bool := (get? d key).isSome

/-- Puts a value at a key, in the place of the value it had. -/
def insert (d : Dict α) (key : String) (value : α) : Dict α :=
  match d with
  | [] => [(key, value)]
  | (k, v) :: rest =>
    if key < k then (key, value) :: (k, v) :: rest
    else if k = key then (key, value) :: rest
    else (k, v) :: insert rest key value

def erase (d : Dict α) (key : String) : Dict α := d.filter (fun pair => pair.1 ≠ key)

/-- The pairs in order of key; of two pairs with one key the later stays. -/
def ofList (pairs : List (String × α)) : Dict α :=
  pairs.foldl (fun d pair => insert d pair.1 pair.2) []

/-- Puts every pair of `new`, in order. -/
def insertAll (d : Dict α) (new : List (String × α)) : Dict α :=
  new.foldl (fun d pair => insert d pair.1 pair.2) d

def keys (d : Dict α) : List String := d.map (·.1)

def values (d : Dict α) : List α := d.map (·.2)

def mapValues (f : α → β) (d : Dict α) : Dict β := d.map fun pair => (pair.1, f pair.2)

def Sorted (d : Dict α) : Prop := d.Pairwise (fun a b => a.1 < b.1)

/-- The keys of a sorted set of strings after `key` is added. -/
def insertKey (keys : List String) (key : String) : List String :=
  match keys with
  | [] => [key]
  | k :: rest => if key < k then key :: k :: rest else if k = key then k :: rest
    else k :: insertKey rest key

/-- A list of strings in increasing order without repetition. -/
def sortKeys (keys : List String) : List String := keys.foldl insertKey []

theorem mem_insert {d : Dict α} {key : String} {value : α} {pair : String × α}
    (h : pair ∈ insert d key value) : pair = (key, value) ∨ pair ∈ d := by
  induction d with
  | nil => simpa [insert] using h
  | cons head rest ih =>
    obtain ⟨k, v⟩ := head
    simp only [insert] at h
    split at h
    · simpa using h
    · split at h
      · rcases List.mem_cons.1 h with h | h
        · exact .inl h
        · exact .inr (List.mem_cons_of_mem _ h)
      · rcases List.mem_cons.1 h with h | h
        · exact .inr (h ▸ List.mem_cons_self)
        · exact (ih h).imp_right (List.mem_cons_of_mem _)

theorem lt_of_not_lt_of_ne {a b : String} (h : ¬ a < b) (hne : b ≠ a) : b < a := by
  rcases Decidable.em (b < a) with hlt | hlt
  · exact hlt
  · exact absurd (String.le_antisymm (String.not_lt.1 h) (String.not_lt.1 hlt)) hne

theorem Sorted.insert {d : Dict α} (h : Sorted d) (key : String) (value : α) :
    Sorted (Dict.insert d key value) := by
  induction d with
  | nil => simp [Dict.insert, Sorted]
  | cons head rest ih =>
    obtain ⟨k, v⟩ := head
    have hk := List.pairwise_cons.1 h
    simp only [Dict.insert]
    split
    · next hlt =>
      refine List.pairwise_cons.2 ⟨fun pair hp => ?_, h⟩
      rcases List.mem_cons.1 hp with rfl | hp
      · exact hlt
      · exact String.lt_trans hlt (hk.1 pair hp)
    · next hlt =>
      split
      · next heq =>
        subst heq
        exact List.pairwise_cons.2 ⟨hk.1, hk.2⟩
      · next hne =>
        refine List.pairwise_cons.2 ⟨fun pair hp => ?_, ih hk.2⟩
        rcases mem_insert hp with rfl | hp
        · exact lt_of_not_lt_of_ne hlt hne
        · exact hk.1 pair hp

theorem Sorted.erase {d : Dict α} (h : Sorted d) (key : String) : Sorted (Dict.erase d key) :=
  h.filter _

theorem Sorted.insertAll {d : Dict α} (h : Sorted d) (new : List (String × α)) :
    Sorted (Dict.insertAll d new) := by
  induction new generalizing d with
  | nil => exact h
  | cons pair rest ih => exact ih (h.insert pair.1 pair.2)

theorem sorted_ofList (pairs : List (String × α)) : Sorted (ofList pairs) :=
  Sorted.insertAll (d := []) .nil pairs

theorem get?_insert (d : Dict α) (key other : String) (value : α) :
    get? (insert d key value) other = if key = other then some value else get? d other := by
  induction d with
  | nil => simp [insert, get?]
  | cons head rest ih =>
    obtain ⟨k, v⟩ := head
    simp only [insert]
    split
    · simp [get?]
    · split
      · next heq => subst heq; simp only [get?]; split <;> rfl
      · next hne =>
        simp only [get?, ih]
        split
        · next hko => rw [if_neg (fun h => hne (hko.trans h.symm))]
        · rfl

theorem get?_erase (d : Dict α) (key other : String) :
    get? (erase d key) other = if key = other then none else get? d other := by
  induction d with
  | nil => simp [erase, get?]
  | cons head rest ih =>
    obtain ⟨k, v⟩ := head
    simp only [erase] at ih
    simp only [erase, List.filter_cons]
    split
    · next hne =>
      simp only [get?, ih]
      split
      · next hko => subst hko; rw [if_neg (fun h => by simp [h] at hne)]
      · rfl
    · next heq =>
      have heq : k = key := by simpa using heq
      subst heq
      rw [ih]
      simp only [get?]
      split <;> rfl

end Dict

end ResourceModels
