import Mathlib.Data.List.Basic
import ResourceModels.Proofs.Outcome

/-!
# Lists found piece by piece

Each of some things has a list, and the lists are put one after another. A choice among the members
takes the first or the last one that is right. If the lists of different things agree about it, what
is chosen does not depend on the order of the things.
-/

namespace ResourceModels

variable {α β γ : Type}

/-- The lists of some things one after another, if each of them has one. -/
def gather (f : α → Option (List β)) : List α → Option (List β)
  | [] => some []
  | x :: rest => (f x).bind fun own => (gather f rest).map (own ++ ·)

section

variable {f : α → Option (List β)} {xs ys : List α} {l l' : List β}

theorem gather_cons_eq_some {x : α} : gather f (x :: xs) = some l ↔
    ∃ own more, f x = some own ∧ gather f xs = some more ∧ l = own ++ more := by
  simp only [gather, Option.bind_eq_some_iff, Option.map_eq_some_iff]
  constructor
  · rintro ⟨own, hown, more, hmore, rfl⟩
    exact ⟨own, more, hown, hmore, rfl⟩
  · rintro ⟨own, more, hown, hmore, rfl⟩
    exact ⟨own, hown, more, hmore, rfl⟩

theorem gather_append (f : α → Option (List β)) (xs ys : List α) :
    gather f (xs ++ ys) = (gather f xs).bind fun own => (gather f ys).map (own ++ ·) := by
  induction xs with
  | nil => simp [gather]
  | cons x rest ih =>
    simp only [List.cons_append, gather, ih]
    cases f x <;> cases gather f rest <;> cases gather f ys <;> simp

theorem bind_gather (f : α → Option (List β)) (g : β → Option (List γ)) (xs : List α) :
    (gather f xs).bind (gather g) = gather (fun x => (f x).bind (gather g)) xs := by
  induction xs with
  | nil => rfl
  | cons x rest ih =>
    simp only [gather, ← ih]
    cases f x with
    | none => rfl
    | some own =>
      cases gather f rest with
      | none => cases hg : gather g own <;> simp [hg]
      | some more => simp [gather_append]

theorem map_gather (f : α → Option (List β)) (h : β → γ) (xs : List α) :
    (gather f xs).map (List.map h) = gather (fun x => (f x).map (List.map h)) xs := by
  induction xs with
  | nil => rfl
  | cons x rest ih =>
    simp only [gather, ← ih]
    cases f x <;> cases gather f rest <;> simp

theorem gather_map (f : β → Option (List γ)) (h : α → β) (xs : List α) :
    gather f (xs.map h) = gather (fun x => f (h x)) xs := by
  induction xs with
  | nil => rfl
  | cons x rest ih => simp only [List.map_cons, gather, ih]

theorem toOption_flatten {ε : Type} (f : α → Except ε (List β)) (xs : List α) :
    (do return (← xs.mapM f).flatten).toOption = gather (fun x => (f x).toOption) xs := by
  induction xs with
  | nil => rfl
  | cons x rest ih =>
    simp only [gather, ← ih, List.mapM_cons]
    cases f x with
    | error fault => rfl
    | ok own => cases rest.mapM f <;> rfl

theorem exists_gather_iff :
    (∃ l, gather f xs = some l) ↔ ∀ x ∈ xs, ∃ own, f x = some own := by
  induction xs with
  | nil => simp [gather]
  | cons x rest ih =>
    simp only [gather_cons_eq_some, List.forall_mem_cons, ← ih]
    constructor
    · rintro ⟨_, own, more, hown, hmore, rfl⟩
      exact ⟨⟨own, hown⟩, more, hmore⟩
    · rintro ⟨⟨own, hown⟩, more, hmore⟩
      exact ⟨_, own, more, hown, hmore, rfl⟩

theorem mem_gather_iff (h : gather f xs = some l) {y : β} :
    y ∈ l ↔ ∃ x ∈ xs, ∃ own, f x = some own ∧ y ∈ own := by
  induction xs generalizing l with
  | nil =>
    cases h
    simp
  | cons x rest ih =>
    obtain ⟨own, more, hown, hmore, rfl⟩ := gather_cons_eq_some.mp h
    rw [List.mem_append, ih hmore, List.exists_mem_cons_iff]
    simp [hown]

/-- The first or the last member that is right, whatever is right about it. -/
structure Chooses (choose : List β → Option γ) : Prop where
  nil : choose [] = none
  append : (∀ a b, choose (a ++ b) = (choose a).or (choose b)) ∨
    ∀ a b, choose (a ++ b) = (choose b).or (choose a)

/-- What is chosen from the list of one thing is what is chosen from that of another one. -/
def Agree (choose : List β → Option γ) (f : α → Option (List β)) (xs : List α) : Prop :=
  ∀ x ∈ xs, ∀ y ∈ xs, ∀ own other, f x = some own → f y = some other →
    ∀ v w, choose own = some v → choose other = some w → v = w

variable {choose : List β → Option γ}

theorem or_eq_some_iff {a b : Option γ} (h : ∀ v w, a = some v → b = some w → v = w) {v : γ} :
    a.or b = some v ↔ a = some v ∨ b = some v := by
  cases a with
  | none => simp
  | some x =>
    cases b with
    | none => simp
    | some y =>
      rw [h x y rfl rfl]
      simp

theorem Chooses.gather_eq_some_iff (hc : Chooses choose) (h : gather f xs = some l)
    (hagree : Agree choose f xs) {v : γ} :
    choose l = some v ↔ ∃ x ∈ xs, ∃ own, f x = some own ∧ choose own = some v := by
  induction xs generalizing l v with
  | nil =>
    cases h
    simp [hc.nil]
  | cons x rest ih =>
    obtain ⟨own, more, hown, hmore, rfl⟩ := gather_cons_eq_some.mp h
    have hrest : Agree choose f rest := fun y hy z hz =>
      hagree y (List.mem_cons_of_mem _ hy) z (List.mem_cons_of_mem _ hz)
    -- where both parts have something to choose, it is the same
    have hsame : ∀ v w, choose own = some v → choose more = some w → v = w := by
      intro v w hv hw
      obtain ⟨y, hy, other, hother, hchoose⟩ := (ih hmore hrest).mp hw
      have hmem : y ∈ x :: rest := List.mem_cons_of_mem _ hy
      exact hagree x List.mem_cons_self y hmem own other hown hother v w hv hchoose
    have happend : choose (own ++ more) = some v ↔ choose own = some v ∨ choose more = some v := by
      rcases hc.append with h | h
      · rw [h, or_eq_some_iff hsame]
      · rw [h, or_eq_some_iff fun v w hv hw => (hsame w v hw hv).symm, or_comm]
    rw [happend, ih hmore hrest, List.exists_mem_cons_iff]
    simp [hown]

/-- What is chosen depends only on which things have something to choose from. -/
theorem Chooses.gather_eq (hc : Chooses choose) (h : gather f xs = some l)
    (h' : gather f ys = some l') (hsame : ∀ x, f x ≠ some [] → (x ∈ xs ↔ x ∈ ys))
    (hagree : Agree choose f xs) : choose l = choose l' := by
  have hne : ∀ {x : α} {own : List β} {v : γ}, f x = some own → choose own = some v →
      (x ∈ xs ↔ x ∈ ys) := by
    intro x own v hown hv
    refine hsame x fun hempty => ?_
    cases hown.symm.trans hempty
    rw [hc.nil] at hv
    cases hv
  have hagree' : Agree choose f ys := by
    intro x hx y hy own other hown hother v w hv hw
    exact hagree x ((hne hown hv).mpr hx) y ((hne hother hw).mpr hy) own other hown hother v w hv hw
  refine Option.ext fun v => ?_
  rw [hc.gather_eq_some_iff h hagree, hc.gather_eq_some_iff h' hagree']
  constructor
  · rintro ⟨x, hx, own, hown, hv⟩
    exact ⟨x, (hne hown hv).mp hx, own, hown, hv⟩
  · rintro ⟨x, hx, own, hown, hv⟩
    exact ⟨x, (hne hown hv).mpr hx, own, hown, hv⟩

end

end ResourceModels
