import ResourceModels.Proofs.Json

/-!
# Values that are read

What holds of every item that is read holds of a list, and what each field of a record keeps the
record keeps. Two ways to take up the fields of a record, run on the same value, also keep any
relation between them that each field keeps.
-/

namespace ResourceModels.Decode

open Yaml (Value)

variable {d : Dialect} {σ τ : Type} {take : σ → String → Value → Except Mismatch σ}
  {take' : τ → String → Value → Except Mismatch τ}

section

variable {α : Type} {read : Value → Except Mismatch α} {P : α → Prop} {v : Value}

theorem list_preserves (hread : ∀ v a, read v = .ok a → P a) {xs : List α}
    (h : list d read v = .ok xs) : ∀ a ∈ xs, P a := by
  intro a ha
  unfold list at h
  split at h
  · obtain ⟨item, -, hitem⟩ := Outcome.exists_of_mem_mapM h ha
    exact hread item a hitem
  · split at h
    · cases h
      cases ha
    · cases h
  · cases h

theorem optional_preserves (hread : ∀ v a, read v = .ok a → P a) {x : Option α}
    (h : optional read v = .ok x) : ∀ a ∈ x, P a := by
  rintro a rfl
  unfold optional at h
  split at h
  · cases h
  · obtain ⟨_, hown, h⟩ := Outcome.bind_pure_eq_ok.mp h
    cases h
    exact hread _ _ hown

/-- A value that is read and may not be null is read as an optional value too. -/
theorem optional_eq_some {a : α} (h : read v = .ok a) (hnull : ∀ b, read .null ≠ .ok b) :
    optional read v = .ok (some a) := by
  unfold optional
  split
  · exact absurd h (hnull a)
  · rw [h]
    rfl

theorem inOrder_of_list {values : List Json} (h : list d (json d) v = .ok values) :
    ∀ j ∈ values, j.InOrder := list_preserves (fun _ _ => inOrder_of_json) h

theorem inOrder_of_optional {value : Option Json} (h : optional (json d) v = .ok value) :
    ∀ j ∈ value, j.InOrder := optional_preserves (fun _ _ => inOrder_of_json) h

theorem sorted_of_dict {texts : Dict α} (h : dict d read v = .ok texts) : Dict.Sorted texts := by
  unfold dict at h
  split at h
  · obtain ⟨pairs, -, rfl⟩ := Outcome.bind_pure_eq_ok.mp h
    exact Dict.sorted_ofList pairs
  · split at h
    · cases h
      exact .nil
    · cases h
  · cases h

end

section

variable {R : σ → τ → Prop}

theorem fields_related {known known' : List String}
    (hstep : ∀ s t key v s' t', R s t → take s key v = .ok s' → take' t key v = .ok t' → R s' t')
    {pairs : List (Value × Value)} {s s' : σ} {t t' : τ} {seen seen' : List String} (hR : R s t)
    (h : fields d known take s seen pairs = .ok s')
    (h' : fields d known' take' t seen' pairs = .ok t') : R s' t' := by
  induction pairs generalizing s t seen seen' with
  | nil =>
    cases h
    cases h'
    exact hR
  | cons pair rest ih =>
    obtain ⟨key, v⟩ := pair
    rw [fields] at h h'
    obtain ⟨name, hname, h⟩ := Outcome.bind_eq_ok.mp h
    obtain ⟨name', hname', h'⟩ := Outcome.bind_eq_ok.mp h'
    rw [hname] at hname'
    cases hname'
    split at h
    · cases h
    split at h'
    · cases h'
    obtain ⟨s₁, hs₁, h⟩ := Outcome.bind_eq_ok.mp h
    obtain ⟨t₁, ht₁, h'⟩ := Outcome.bind_eq_ok.mp h'
    exact ih (hstep s t name v s₁ t₁ hR hs₁ ht₁) h h'

theorem record_related (hd : d.listIsRecord = false) {name name' : String}
    {order order' : List String} {start s : σ} {start' t : τ} {v : Value} {shape shape' : Shape}
    (hstep : ∀ s t key v s' t', R s t → take s key v = .ok s' → take' t key v = .ok t' → R s' t')
    (hR : R start start') (h : record d name order take start v = .ok (s, shape))
    (h' : record d name' order' take' start' v = .ok (t, shape')) : R s t := by
  unfold record at h h'
  cases hv : v.untag with
  | map pairs =>
    simp only [hv, Outcome.bind_eq_ok, Outcome.pure_eq_ok] at h h'
    obtain ⟨_, hs, h⟩ := h
    obtain ⟨_, ht, h'⟩ := h'
    cases h
    cases h'
    exact fields_related hstep hR hs ht
  | null =>
    simp only [hv] at h h'
    split at h
    · next hnull =>
      rw [if_pos hnull] at h'
      cases h
      cases h'
      exact hR
    · cases h
  | seq items => simp [hv, hd, mismatch] at h
  | _ => simp [hv, mismatch] at h

end

theorem required_eq_ok {α : Type} {shape : Shape} {field : String} {position : Nat}
    {given : Option α} {a : α} (h : required shape field position given = .ok a) :
    given = some a := by
  cases given with
  | none => cases shape <;> cases h
  | some b =>
    cases h
    rfl

/-- The values that stand for the fields of a record. -/
def fieldValues : Value → List Value
  | .map pairs => pairs.map (·.2)
  | .seq items => items
  | _ => []

theorem exists_of_mem_fieldValues_ofJson {j : Json} {part : Value}
    (h : part ∈ fieldValues (.ofJson j)) : ∃ own, part = .ofJson own := by
  cases j with
  | arr items =>
    rw [Value.ofJson, Value.ofJsonItems_eq] at h
    obtain ⟨own, -, rfl⟩ := List.mem_map.mp h
    exact ⟨own, rfl⟩
  | obj fields =>
    rw [Value.ofJson, fieldValues] at h
    induction fields with
    | nil => cases h
    | cons field rest ih =>
      rcases List.mem_cons.mp h with rfl | h
      · exact ⟨field.2, rfl⟩
      · exact ih h
  | _ => cases h

section

variable {P : σ → Prop} {Q : Value → Prop} {s s' : σ} {order : List String}
  (hstep : ∀ s key v s', Q v → P s → take s key v = .ok s' → P s')

include hstep

theorem fields_preserve {known seen : List String} {pairs : List (Value × Value)}
    (hQ : ∀ part ∈ pairs.map (·.2), Q part) (hP : P s)
    (h : fields d known take s seen pairs = .ok s') : P s' := by
  induction pairs generalizing s seen with
  | nil =>
    cases h
    exact hP
  | cons pair rest ih =>
    obtain ⟨key, v⟩ := pair
    obtain ⟨hv, hrest⟩ := List.forall_mem_cons.mp hQ
    rw [fields] at h
    obtain ⟨own, -, h⟩ := Outcome.bind_eq_ok.mp h
    split at h
    · cases h
    · obtain ⟨next, hnext, h⟩ := Outcome.bind_eq_ok.mp h
      exact ih hrest (hstep s own v next hv hP hnext) h

theorem foldlM_take_preserves {given : List (String × Value)} (hQ : ∀ field ∈ given, Q field.2)
    (hP : P s) (h : given.foldlM (fun s field => take s field.1 field.2) s = .ok s') : P s' := by
  induction given generalizing s with
  | nil =>
    cases h
    exact hP
  | cons field rest ih =>
    obtain ⟨hfield, hrest⟩ := List.forall_mem_cons.mp hQ
    rw [List.foldlM_cons, Outcome.bind_eq_ok] at h
    obtain ⟨next, hnext, h⟩ := h
    exact ih hrest (hstep s field.1 field.2 next hfield hP hnext) h

/-- A record keeps what each of its fields keeps that is read from a value of some sort, if all its
values are of that sort. -/
theorem record_preserves_of {name : String} {v : Value} {shape : Shape}
    (hQ : ∀ part ∈ fieldValues v.untag, Q part) (hP : P s)
    (h : record d name order take s v = .ok (s', shape)) : P s' := by
  unfold record at h
  cases hv : v.untag with
  | map pairs =>
    rw [hv] at hQ
    simp only [hv, Outcome.bind_eq_ok, Outcome.pure_eq_ok] at h
    obtain ⟨_, hfields, h⟩ := h
    cases h
    exact fields_preserve hstep hQ hP hfields
  | null =>
    simp only [hv] at h
    split at h
    · cases h
      exact hP
    · cases h
  | seq items =>
    rw [hv] at hQ
    simp only [hv] at h
    split at h
    · obtain ⟨_, hitems, h⟩ := Outcome.bind_eq_ok.mp h
      split at h
      · cases h
      · cases h
        exact foldlM_take_preserves hstep
          (fun field hfield => hQ field.2 (List.of_mem_zip hfield).2) hP hitems
    · cases h
  | _ => simp [hv, mismatch] at h

end

section

variable {P : σ → Prop} {s s' : σ} {name : String} {order : List String} {shape : Shape}

/-- A record keeps what each of its fields keeps. -/
theorem record_preserves {v : Value} (hstep : ∀ s key v s', P s → take s key v = .ok s' → P s')
    (hP : P s) (h : record d name order take s v = .ok (s', shape)) : P s' :=
  record_preserves_of (Q := fun _ => True) (fun s key v s' _ => hstep s key v s')
    (fun _ _ => trivial) hP h

theorem record_ofJson_preserves {j : Json}
    (hstep : ∀ s key j s', P s → take s key (.ofJson j) = .ok s' → P s') (hP : P s)
    (h : record d name order take s (.ofJson j) = .ok (s', shape)) : P s' := by
  refine record_preserves_of (Q := fun v => ∃ j, v = .ofJson j) ?_ (fun part hpart => ?_) hP h
  · rintro s key _ s' ⟨j, rfl⟩
    exact hstep s key j s'
  · rw [Value.untag_ofJson] at hpart
    exact exists_of_mem_fieldValues_ofJson hpart

end

section

variable {β : Type} {f : σ → β} {known : List String} {name : String} (hknown : name ∈ known)
  (hother : ∀ s key j s', key ≠ name → take s key (.ofJson j) = .ok s' → f s' = f s)

include hknown hother

/-- What a field with a meaning has set stays, as the field may not stand again. -/
theorem fields_keep_seen {written : List (String × Json)} {s s' : σ} {seen : List String}
    (hseen : name ∈ seen)
    (h : fields d known take s seen (Value.ofJsonFields written) = .ok s') : f s' = f s := by
  induction written generalizing s seen with
  | nil =>
    cases h
    rfl
  | cons field rest ih =>
    obtain ⟨key, value⟩ := field
    rw [Value.ofJsonFields, fields] at h
    obtain ⟨own, -, h⟩ := Outcome.bind_eq_ok.mp h
    split at h
    · cases h
    · next hfree =>
      obtain ⟨next, hnext, hrest⟩ := Outcome.bind_eq_ok.mp h
      have hne : own ≠ name := by
        rintro rfl
        exact hfree ⟨hknown, hseen⟩
      exact (ih (List.mem_cons_of_mem _ hseen) hrest).trans (hother s own value next hne hnext)

theorem fields_given {written : List (String × Json)} {s s' : σ} {seen : List String} {j : Json}
    {b : β} (hown : ∀ s s', take s name (.ofJson j) = .ok s' → f s' = b)
    (hget : Dict.get? written name = some j)
    (h : fields d known take s seen (Value.ofJsonFields written) = .ok s') : f s' = b := by
  induction written generalizing s seen with
  | nil => cases hget
  | cons field rest ih =>
    obtain ⟨key, value⟩ := field
    rw [Value.ofJsonFields, fields] at h
    obtain ⟨own, hname, hrun⟩ := Outcome.bind_eq_ok.mp h
    obtain rfl : key = own := Except.ok.inj hname
    split at hrun
    · cases hrun
    · obtain ⟨next, hnext, hrest⟩ := Outcome.bind_eq_ok.mp hrun
      rw [Dict.get?] at hget
      split at hget
      · next hsame =>
        subst hsame
        cases hget
        have hkept := fields_keep_seen hknown hother List.mem_cons_self hrest
        exact hkept.trans (hown s next hnext)
      · exact ih hget hrest

/-- A part of a record that only one field sets is what is given there. -/
theorem record_given {record : String} {j value : Json} {s s' : σ} {shape : Shape} {b : β}
    (hown : ∀ s s', take s name (.ofJson value) = .ok s' → f s' = b)
    (hget : j.get? name = some value)
    (h : Decode.record d record known take s (.ofJson j) = .ok (s', shape)) : f s' = b := by
  cases j with
  | obj written =>
    obtain ⟨_, hfields, h⟩ := Outcome.bind_eq_ok.mp h
    cases h
    exact fields_given hknown hother hown hget hfields
  | _ => cases hget

end

end ResourceModels.Decode
