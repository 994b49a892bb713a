import Mathlib.Data.List.Basic
import Mathlib.Data.List.Nodup
import Mathlib.Data.List.Perm.Subperm
import Mathlib.Order.Basic
import Mathlib.Data.String.Basic
import ResourceModels.Dict

/-!
# Views of finite maps

A sorted map is fixed by what it holds at each key, and a sorted list of strings by its members. The
keys, the pairs and the values after a run of insertions are read off the list of what is put.
-/

namespace ResourceModels.Dict

variable {α β : Type}

theorem get?_eq_none_iff {d : Dict α} {key : String} : get? d key = none ↔ key ∉ keys d := by
  induction d with
  | nil => simp [get?, keys]
  | cons head rest ih =>
    obtain ⟨k, v⟩ := head
    simp only [keys] at ih
    simp only [get?, keys, List.map_cons, List.mem_cons, not_or]
    split
    · next h => simp [h]
    · next h => simp [ih, Ne.symm h]

theorem isSome_get?_iff {d : Dict α} {key : String} : (get? d key).isSome ↔ key ∈ keys d := by
  rw [← Option.ne_none_iff_isSome, ne_eq, get?_eq_none_iff, not_not]

theorem mem_of_get? {d : Dict α} {key : String} {value : α} (h : get? d key = some value) :
    (key, value) ∈ d := by
  induction d with
  | nil => simp [get?] at h
  | cons head rest ih =>
    obtain ⟨k, v⟩ := head
    simp only [get?] at h
    split at h
    · next hk => cases h; subst hk; exact List.mem_cons_self
    · exact List.mem_cons_of_mem _ (ih h)

theorem mem_keys_of_mem {d : Dict α} {key : String} {value : α} (h : (key, value) ∈ d) :
    key ∈ keys d := List.mem_map.mpr ⟨_, h, rfl⟩

theorem Sorted.keys_pairwise {d : Dict α} (h : Sorted d) : (keys d).Pairwise (· < ·) :=
  List.pairwise_map.mpr h

theorem Sorted.keys_nodup {d : Dict α} (h : Sorted d) : (keys d).Nodup :=
  h.keys_pairwise.imp fun hlt => ne_of_lt hlt

theorem Sorted.get?_of_mem {d : Dict α} (h : Sorted d) {key : String} {value : α}
    (hm : (key, value) ∈ d) : get? d key = some value := by
  induction d with
  | nil => cases hm
  | cons head rest ih =>
    obtain ⟨k, v⟩ := head
    have hk := List.pairwise_cons.mp h
    simp only [get?]
    rcases List.mem_cons.mp hm with heq | hm
    · cases heq; simp
    · have hne : k ≠ key := ne_of_lt (hk.1 _ hm)
      rw [if_neg hne]
      exact ih hk.2 hm

theorem Sorted.get?_eq_some_iff {d : Dict α} (h : Sorted d) {key : String} {value : α} :
    get? d key = some value ↔ (key, value) ∈ d :=
  ⟨mem_of_get?, h.get?_of_mem⟩

/-- Lists with the same members are equal if both are in one strict order. -/
theorem eq_of_pairwise {γ : Type} {r : γ → γ → Prop} (hr : ∀ a b, r a b → ¬r b a) {l l' : List γ}
    (h : l.Pairwise r) (h' : l'.Pairwise r) (hmem : ∀ x, x ∈ l ↔ x ∈ l') : l = l' := by
  have hne : ∀ a b, r a b → a ≠ b := by
    intro a b hab heq
    subst heq
    exact hr a a hab hab
  have hperm := (List.perm_ext_iff_of_nodup (h.imp (hne _ _)) (h'.imp (hne _ _))).mpr hmem
  exact hperm.eq_of_pairwise (fun a b _ _ hab hba => absurd hba (hr a b hab)) h h'

theorem keys_eq_of_mem {keys keys' : List String} (h : keys.Pairwise (· < ·))
    (h' : keys'.Pairwise (· < ·)) (hmem : ∀ key, key ∈ keys ↔ key ∈ keys') : keys = keys' :=
  eq_of_pairwise (fun _ _ hab => lt_asymm hab) h h' hmem

theorem Sorted.ext {d d' : Dict α} (h : Sorted d) (h' : Sorted d')
    (hget : ∀ key, get? d key = get? d' key) : d = d' := by
  refine eq_of_pairwise (fun _ _ hab => lt_asymm hab) h h' ?_
  rintro ⟨key, value⟩
  rw [← h.get?_eq_some_iff, ← h'.get?_eq_some_iff, hget]

theorem insert_insert_self (d : Dict α) (key : String) (value value' : α) :
    insert (insert d key value) key value' = insert d key value' := by
  induction d with
  | nil => simp [insert]
  | cons head rest ih =>
    obtain ⟨k, v⟩ := head
    simp only [insert]
    split
    · simp [insert]
    · next hlt =>
      split
      · simp [insert]
      · next hne => simp only [insert, if_neg hlt, if_neg hne, ih]

/-- Values under two keys may be put in either order. -/
theorem insert_insert_of_lt (d : Dict α) {key key' : String} (h : key < key') (value value' : α) :
    insert (insert d key value) key' value' = insert (insert d key' value') key value := by
  have hnot : ¬key' < key := lt_asymm h
  induction d with
  | nil => simp [insert, hnot, h.ne, h]
  | cons head rest ih =>
    obtain ⟨k, v⟩ := head
    by_cases hk' : key' < k
    · have hk : key < k := h.trans hk'
      simp [insert, hk', hk, hnot, h.ne, h]
    · by_cases hk : key < k
      · by_cases heq : k = key' <;> simp [insert, hk', hk, hnot, heq, h.ne, h]
      · by_cases heq : k = key
        · subst heq
          simp [insert, hnot, h.ne]
        · by_cases heq' : k = key'
          · exact absurd (heq' ▸ h) hk
          · simp [insert, hk', hk, heq, heq', ih]

theorem mem_keys_insert {d : Dict α} {key other : String} {value : α} :
    other ∈ keys (insert d key value) ↔ other = key ∨ other ∈ keys d := by
  rw [← isSome_get?_iff, get?_insert, ← isSome_get?_iff]
  split
  · next h => simp [h]
  · next h => simp [Ne.symm h]

theorem insert_perm {d : Dict α} {key : String} (h : key ∉ keys d) (value : α) :
    (insert d key value).Perm ((key, value) :: d) := by
  induction d with
  | nil => exact List.Perm.refl _
  | cons head rest ih =>
    obtain ⟨k, v⟩ := head
    simp only [keys, List.map_cons, List.mem_cons, not_or] at h
    simp only [insert]
    split
    · exact List.Perm.refl _
    · rw [if_neg (Ne.symm h.1)]
      exact ((ih h.2).cons _).trans (List.Perm.swap _ _ _)

/-- After a run of insertions a key holds what was put there last. -/
theorem get?_insertAll (d : Dict α) (new : List (String × α)) (key : String) :
    get? (insertAll d new) key =
      ((new.reverse.find? (·.1 = key)).map (·.2)).or (get? d key) := by
  induction new generalizing d with
  | nil => rfl
  | cons pair rest ih =>
    have hstep : insertAll d (pair :: rest) = insertAll (insert d pair.1 pair.2) rest := rfl
    rw [hstep, ih, get?_insert, List.reverse_cons, List.find?_append]
    cases (rest.reverse.find? (·.1 = key)) with
    | some last => rfl
    | none => by_cases h : pair.1 = key <;> simp [h]

theorem get?_ofList (pairs : List (String × α)) (key : String) :
    get? (ofList pairs) key = (pairs.reverse.find? (·.1 = key)).map (·.2) := by
  have h := get?_insertAll [] pairs key
  rwa [get?, Option.or_none] at h

theorem get?_ofList_append (pairs more : List (String × α)) (key : String) :
    get? (ofList (pairs ++ more)) key = (get? (ofList more) key).or (get? (ofList pairs) key) := by
  simp only [get?_ofList, List.reverse_append, List.find?_append, Option.map_or]

theorem mem_keys_ofList {pairs : List (String × α)} {key : String} :
    key ∈ keys (ofList pairs) ↔ key ∈ pairs.map (·.1) := by
  rw [← isSome_get?_iff, get?_ofList, Option.isSome_map, List.find?_isSome]
  simp

theorem mem_keys_insertAll {d : Dict α} {new : List (String × α)} {key : String} :
    key ∈ keys (insertAll d new) ↔ key ∈ keys d ∨ key ∈ new.map (·.1) := by
  rw [← isSome_get?_iff, get?_insertAll, Option.isSome_or, Option.isSome_map, Bool.or_eq_true,
    List.find?_isSome, isSome_get?_iff, or_comm]
  simp

theorem mem_insertAll {d : Dict α} {new : List (String × α)} {pair : String × α}
    (h : pair ∈ insertAll d new) : pair ∈ d ∨ pair ∈ new := by
  induction new generalizing d with
  | nil => exact .inl h
  | cons first rest ih =>
    rcases ih h with h | h
    · rcases mem_insert h with rfl | h
      · exact .inr List.mem_cons_self
      · exact .inl h
    · exact .inr (List.mem_cons_of_mem _ h)

/-- What is inserted under a key takes the place of what was there. -/
theorem mem_of_mem_insertAll {d : Dict α} (h : Sorted d) {new : List (String × α)}
    {pair : String × α} (hp : pair ∈ insertAll d new) (hkey : pair.1 ∈ new.map (·.1)) :
    pair ∈ new := by
  obtain ⟨own, hown, hsame⟩ := List.mem_map.mp hkey
  have hget := (h.insertAll new).get?_of_mem hp
  rw [get?_insertAll] at hget
  cases hfind : new.reverse.find? (·.1 = pair.1) with
  | none =>
    have hnone := List.find?_eq_none.mp hfind own (List.mem_reverse.mpr hown)
    simp [hsame] at hnone
  | some found =>
    rw [hfind, Option.map_some, Option.some_or] at hget
    have hfound : found.1 = pair.1 := by simpa using List.find?_some hfind
    have heq : found = pair := Prod.ext hfound (Option.some.inj hget)
    exact heq ▸ List.mem_reverse.mp (List.mem_of_find?_eq_some hfind)

theorem filter_insert {select : String → Bool} (d : Dict α) {key : String}
    (h : select key = false) (value : α) :
    (insert d key value).filter (select ·.1) = d.filter (select ·.1) := by
  induction d with
  | nil => simp [insert, h]
  | cons head rest ih =>
    obtain ⟨k, v⟩ := head
    simp only [insert]
    split
    · rw [List.filter_cons_of_neg (by simpa using h)]
    · split
      · next hsame =>
        subst hsame
        rw [List.filter_cons_of_neg (by simpa using h), List.filter_cons_of_neg (by simpa using h)]
      · rw [List.filter_cons, List.filter_cons, ih]

/-- What is inserted does not matter to those who do not select it. -/
theorem filter_insertAll (select : String → Bool) (d : Dict α) {new : List (String × α)}
    (h : ∀ pair ∈ new, select pair.1 = false) :
    (insertAll d new).filter (select ·.1) = d.filter (select ·.1) := by
  induction new generalizing d with
  | nil => rfl
  | cons first rest ih =>
    have hrest := ih (insert d first.1 first.2) fun pair hp => h pair (List.mem_cons_of_mem _ hp)
    exact hrest.trans (filter_insert d (h first List.mem_cons_self) first.2)

theorem mem_insertAll_of_notMem {d : Dict α} {pair : String × α} (h : pair ∈ d)
    {new : Dict α} (hkey : pair.1 ∉ keys new) : pair ∈ insertAll d new := by
  have hselect : ∀ other ∈ new, decide (other.1 = pair.1) = false := fun other hother =>
    decide_eq_false fun heq => hkey (heq ▸ List.mem_map_of_mem hother)
  have hmem : pair ∈ d.filter fun other => decide (other.1 = pair.1) :=
    List.mem_filter.mpr ⟨h, decide_eq_true rfl⟩
  rw [← filter_insertAll (fun key => decide (key = pair.1)) d hselect] at hmem
  exact List.mem_of_mem_filter hmem

theorem mem_of_mem_ofList {pairs : List (String × α)} {pair : String × α}
    (h : pair ∈ ofList pairs) : pair ∈ pairs :=
  (mem_insertAll h).resolve_left List.not_mem_nil

theorem mem_insertMissing {d : Dict α} {new : List (String × α)} {pair : String × α}
    (h : pair ∈ new.foldl (fun d p => if contains d p.1 then d else insert d p.1 p.2) d) :
    pair ∈ d ∨ pair ∈ new := by
  induction new generalizing d with
  | nil => exact .inl h
  | cons first rest ih =>
    rw [List.foldl_cons] at h
    rcases ih h with h | h
    · split at h
      · exact .inl h
      · rcases mem_insert h with rfl | h
        · exact .inr List.mem_cons_self
        · exact .inl h
    · exact .inr (List.mem_cons_of_mem _ h)

theorem sorted_insertMissing {d : Dict α} (h : Sorted d) (new : List (String × α)) :
    Sorted (new.foldl (fun d p => if contains d p.1 then d else insert d p.1 p.2) d) := by
  induction new generalizing d with
  | nil => exact h
  | cons first rest ih =>
    rw [List.foldl_cons]
    split
    · exact ih h
    · exact ih (h.insert _ _)

theorem mem_keys_insertMissing {d : Dict α} {new : List (String × α)} {key : String} :
    key ∈ keys (new.foldl (fun d p => if contains d p.1 then d else insert d p.1 p.2) d) ↔
      key ∈ keys d ∨ key ∈ new.map (·.1) := by
  induction new generalizing d with
  | nil => simp
  | cons first rest ih =>
    rw [List.foldl_cons, ih, List.map_cons, List.mem_cons]
    split
    · next hc =>
      have hfirst : first.1 ∈ keys d := isSome_get?_iff.mp hc
      constructor
      · rintro (h | h)
        · exact .inl h
        · exact .inr (.inr h)
      · rintro (h | rfl | h)
        · exact .inl h
        · exact .inl hfirst
        · exact .inr h
    · rw [mem_keys_insert]
      tauto

/-- After pairs are put where nothing was, a key holds what it held or what comes first. -/
theorem get?_insertMissing (d : Dict α) (new : List (String × α)) (key : String) :
    get? (new.foldl (fun d p => if contains d p.1 then d else insert d p.1 p.2) d) key =
      (get? d key).or (get? new key) := by
  induction new generalizing d with
  | nil => exact Option.or_none.symm
  | cons first rest ih =>
    obtain ⟨k, v⟩ := first
    rw [List.foldl_cons, ih, get?]
    by_cases hk : k = key
    · subst hk
      rw [contains, if_pos rfl]
      cases hd : get? d k <;> simp [hd, get?_insert]
    · rw [if_neg hk]
      split
      · rfl
      · rw [get?_insert, if_neg hk]

theorem insertMissing_eq_self {d : Dict α} {new : List (String × α)}
    (h : ∀ pair ∈ new, pair.1 ∈ keys d) :
    new.foldl (fun d p => if contains d p.1 then d else insert d p.1 p.2) d = d := by
  induction new with
  | nil => rfl
  | cons first rest ih =>
    have hfirst : contains d first.1 = true := isSome_get?_iff.mpr (h first List.mem_cons_self)
    rw [List.foldl_cons, if_pos hfirst]
    exact ih fun pair hp => h pair (List.mem_cons_of_mem _ hp)

/-- There are as many keys as pairs if and only if no key is put twice. -/
theorem length_keys_ofList_iff {pairs : List (String × α)} :
    (keys (ofList pairs)).length = pairs.length ↔ (pairs.map (·.1)).Nodup := by
  have hnodup : (keys (ofList pairs)).Nodup := (sorted_ofList pairs).keys_nodup
  have hpairs : pairs.length = (pairs.map (·.1)).length := (List.length_map _).symm
  rw [hpairs]
  constructor
  · intro hlength
    have hsub : (keys (ofList pairs)).Subperm (pairs.map (·.1)) :=
      hnodup.subperm fun key => mem_keys_ofList.mp
    exact (hsub.perm_of_length_le hlength.ge).nodup_iff.mp hnodup
  · intro hkeys
    exact ((List.perm_ext_iff_of_nodup hnodup hkeys).mpr fun key => mem_keys_ofList).length_eq

theorem get?_ofList_of_mem {pairs : List (String × α)} (h : (pairs.map (·.1)).Nodup) {key : String}
    {value : α} (hm : (key, value) ∈ pairs) : get? (ofList pairs) key = some value := by
  rw [get?_ofList]
  cases hfind : pairs.reverse.find? (·.1 = key) with
  | none =>
    have hnone := List.find?_eq_none.mp hfind (key, value) (List.mem_reverse.mpr hm)
    simp at hnone
  | some pair =>
    have hkey : pair.1 = key := by simpa using List.find?_some hfind
    have hpair : pair ∈ pairs := List.mem_reverse.mp (List.mem_of_find?_eq_some hfind)
    rw [List.inj_on_of_nodup_map h hpair hm hkey, Option.map_some]

theorem get?_mapValues (f : α → β) (d : Dict α) (key : String) :
    get? (mapValues f d) key = (get? d key).map f := by
  induction d with
  | nil => rfl
  | cons head rest ih =>
    obtain ⟨k, v⟩ := head
    simp only [mapValues] at ih
    simp only [mapValues, List.map_cons, get?, ih]
    split <;> rfl

theorem get?_append (d d' : List (String × α)) (key : String) :
    get? (d ++ d') key = (get? d key).or (get? d' key) := by
  induction d with
  | nil => rfl
  | cons head rest ih =>
    obtain ⟨k, v⟩ := head
    simp only [List.cons_append, get?, ih]
    split <;> rfl

theorem get?_filter (select : String → Bool) (d : Dict α) (key : String) :
    get? (d.filter (select ·.1)) key = if select key then get? d key else none := by
  induction d with
  | nil => simp [get?]
  | cons head rest ih =>
    obtain ⟨k, v⟩ := head
    rw [List.filter_cons]
    by_cases hk : k = key
    · subst hk
      by_cases hselect : select k = true
      · simp [hselect, get?]
      · simp [hselect, ih]
    · split <;> simp [get?, hk, ih]

theorem get?_ofList_filter (select : String → Bool) (pairs : List (String × α)) (key : String) :
    get? (ofList (pairs.filter (select ·.1))) key =
      if select key then get? (ofList pairs) key else none := by
  rw [get?_ofList, get?_ofList, ← List.filter_reverse, List.find?_filter]
  have hpred : (fun pair : String × α =>
        decide (select pair.1 = true ∧ decide (pair.1 = key) = true)) =
      fun pair => select key && decide (pair.1 = key) := by
    funext pair
    by_cases h : pair.1 = key <;> simp [h]
  rw [hpred]
  split
  · next h => simp [h]
  · next h => simp [h]

theorem Sorted.mapValues {d : Dict α} (h : Sorted d) (f : α → β) : Sorted (mapValues f d) :=
  List.pairwise_map.mpr h

theorem insert_mapValues (f : α → β) (d : Dict α) (key : String) (value : α) :
    insert (mapValues f d) key (f value) = mapValues f (insert d key value) := by
  induction d with
  | nil => rfl
  | cons head rest ih =>
    obtain ⟨k, v⟩ := head
    simp only [mapValues] at ih
    simp only [mapValues, List.map_cons, insert]
    split
    · rfl
    · split
      · rfl
      · rw [List.map_cons, ih]

theorem ofList_mapValues (f : α → β) (pairs : List (String × α)) :
    ofList (mapValues f pairs) = mapValues f (ofList pairs) := by
  have hfold : ∀ d : Dict α, insertAll (mapValues f d) (mapValues f pairs) =
      mapValues f (insertAll d pairs) := by
    induction pairs with
    | nil => exact fun _ => rfl
    | cons pair rest ih =>
      intro d
      have hinsert := insert_mapValues f d pair.1 pair.2
      simp only [mapValues] at ih hinsert
      simp only [insertAll, mapValues, List.map_cons, List.foldl_cons] at ih ⊢
      rw [hinsert, ih]
  exact hfold []

theorem get?_ofList_of_nodup {pairs : List (String × α)} (h : (pairs.map (·.1)).Nodup)
    (key : String) : get? (ofList pairs) key = get? pairs key := by
  cases hget : get? pairs key with
  | some value => exact get?_ofList_of_mem h (mem_of_get? hget)
  | none => exact get?_eq_none_iff.mpr fun hm => get?_eq_none_iff.mp hget (mem_keys_ofList.mp hm)

theorem Sorted.ofList_eq {d : Dict α} (h : Sorted d) : ofList d = d :=
  (sorted_ofList d).ext h (get?_ofList_of_nodup h.keys_nodup)

/-- A map is made of its pairs in any order. -/
theorem Sorted.eq_ofList_of_perm {d : Dict α} (h : Sorted d) {pairs : List (String × α)}
    (hperm : d.Perm pairs) : d = ofList pairs := by
  have hkeys : (pairs.map (·.1)).Nodup := (hperm.map _).nodup_iff.mp h.keys_nodup
  refine h.ext (sorted_ofList pairs) fun key => ?_
  cases hget : get? (ofList pairs) key with
  | some value =>
    rw [get?_ofList_of_nodup hkeys] at hget
    exact h.get?_of_mem (hperm.mem_iff.mpr (mem_of_get? hget))
  | none =>
    rw [get?_eq_none_iff, mem_keys_ofList] at hget
    exact get?_eq_none_iff.mpr fun hmem => hget ((hperm.map _).mem_iff.mp hmem)

theorem mem_insertKey {keys : List String} {key other : String} :
    other ∈ insertKey keys key ↔ other = key ∨ other ∈ keys := by
  induction keys with
  | nil => simp [insertKey]
  | cons k rest ih =>
    simp only [insertKey]
    split
    · simp
    · split
      · next h => simp [h]
      · simp only [List.mem_cons, ih]
        tauto

theorem pairwise_insertKey {keys : List String} (h : keys.Pairwise (· < ·)) (key : String) :
    (insertKey keys key).Pairwise (· < ·) := by
  induction keys with
  | nil => simp [insertKey]
  | cons k rest ih =>
    have hk := List.pairwise_cons.mp h
    simp only [insertKey]
    split
    · next hlt =>
      refine List.pairwise_cons.mpr ⟨fun other hm => ?_, h⟩
      rcases List.mem_cons.mp hm with rfl | hm
      · exact hlt
      · exact lt_trans hlt (hk.1 other hm)
    · next hlt =>
      split
      · exact h
      · next hne =>
        refine List.pairwise_cons.mpr ⟨fun other hm => ?_, ih hk.2⟩
        rcases mem_insertKey.mp hm with rfl | hm
        · exact lt_of_not_lt_of_ne hlt hne
        · exact hk.1 other hm

theorem mem_sortKeys {keys : List String} {key : String} : key ∈ sortKeys keys ↔ key ∈ keys := by
  have hfold : ∀ sorted : List String,
      key ∈ keys.foldl insertKey sorted ↔ key ∈ keys ∨ key ∈ sorted := by
    induction keys with
    | nil => simp
    | cons k rest ih =>
      intro sorted
      rw [List.foldl_cons, ih, mem_insertKey, List.mem_cons]
      tauto
  simpa [sortKeys] using hfold []

theorem pairwise_sortKeys (keys : List String) : (sortKeys keys).Pairwise (· < ·) := by
  have hfold : ∀ sorted : List String, sorted.Pairwise (· < ·) →
      (keys.foldl insertKey sorted).Pairwise (· < ·) := by
    induction keys with
    | nil => exact fun _ h => h
    | cons k rest ih => exact fun sorted h => ih _ (pairwise_insertKey h k)
  exact hfold [] .nil

end ResourceModels.Dict
