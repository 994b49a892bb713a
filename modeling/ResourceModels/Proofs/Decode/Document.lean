import ResourceModels.Decode.Document
import ResourceModels.Proofs.Json

/-!
# What walks give

A walk over the events of a document gives only results of some sort if each of its steps does. The
JSON values that are read on a walk are in order, and the numbers have 64 bits.
-/

namespace ResourceModels.Yaml.Walk

variable {α β σ : Type} {P : α → Prop} {Q : β → Prop}

/-- Whatever a walk gives, where it comes to an end, is of some sort. -/
def Gives (x : Walk α) (P : α → Prop) : Prop :=
  ∀ c place a place', x c place = .ok (a, place') → P a

namespace Gives

theorem pure {a : α} (h : P a) : Gives (Pure.pure a) P := by
  intro c place _ _ hrun
  cases hrun
  exact h

theorem any (x : Walk α) : Gives x fun _ => True := fun _ _ _ _ _ => trivial

theorem fault : Gives Walk.fault P := fun _ _ _ _ hrun => by cases hrun

theorem bind {x : Walk α} {f : α → Walk β} (hx : Gives x P) (hf : ∀ a, P a → Gives (f a) Q) :
    Gives (x >>= f) Q := by
  intro c place b place' hrun
  obtain ⟨⟨a, between⟩, ha, hb⟩ := Outcome.bind_eq_ok.mp hrun
  exact hf a (hx c place a between ha) c between b place' hb

/-- After a step of which nothing is used but its result. -/
theorem then_ {x : Walk α} {f : α → Walk β} (hf : ∀ a, Gives (f a) Q) : Gives (x >>= f) Q :=
  (any x).bind fun a _ => hf a

theorem map {x : Walk α} {f : α → β} (hx : Gives x P) (hf : ∀ a, P a → Q (f a)) :
    Gives (do return f (← x)) Q := hx.bind fun a ha => pure (hf a ha)

theorem orFault {x : Option α} (h : ∀ a ∈ x, P a) : Gives (Walk.orFault x) P := by
  cases x with
  | none => exact fault
  | some a => exact pure (h a rfl)

theorem fitting {x : Except Mismatch α} (h : ∀ a, x = .ok a → P a) : Gives (Walk.fitting x) P := by
  cases x with
  | error cause => exact fault
  | ok a => exact pure (h a rfl)

section

variable {read : Event → Walk α} (hread : ∀ e, Gives (read e) P)
include hread

theorem node : Gives (Walk.node read) P := by
  refine then_ fun e => ?_
  split
  · refine then_ fun p => ?_
    split
    · exact then_ fun _ => then_ fun _ => then_ fun _ => then_ fun e =>
        (hread e).bind fun a ha => then_ fun _ => pure ha
    · exact then_ fun _ => then_ fun _ => then_ fun e =>
        (hread e).bind fun a ha => then_ fun _ => pure ha
  · exact hread _

end

section

variable {last : Event} {step : σ → Walk σ} {S : σ → Prop} (hstep : ∀ s, S s → Gives (step s) S)
include hstep

theorem steps (fuel : Nat) {s : σ} (hs : S s) : Gives (Walk.steps last step fuel s) S := by
  induction fuel generalizing s with
  | zero => exact fault
  | succ fuel ih =>
    refine then_ fun p => ?_
    split
    · exact then_ fun _ => pure hs
    · exact (hstep s hs).bind fun _ => ih

theorem collection {start : σ} (hs : S start) : Gives (Walk.collection last step start) S := by
  rintro ⟨targets, size, depth⟩ place s place' hrun
  cases depth with
  | zero => cases hrun
  | succ depth => exact steps hstep (size + 1) hs _ place s place' hrun

end

section

variable {read : Event → Walk α} (hread : ∀ e, Gives (read e) P)
include hread

theorem items : Gives (Walk.items read) fun xs => ∀ a ∈ xs, P a := by
  refine map (P := fun xs => ∀ a ∈ xs, P a) (collection (fun before hbefore => ?_) ?_) ?_
  · exact (node hread).map fun a ha => List.forall_mem_cons.mpr ⟨ha, hbefore⟩
  · exact List.forall_mem_nil _
  · exact fun xs hxs a ha => hxs a (List.mem_reverse.mp ha)

theorem list (e : Event) : Gives (Walk.list read e) fun xs => ∀ a ∈ xs, P a := by
  unfold Walk.list
  split
  · exact items hread
  · split
    · exact pure (List.forall_mem_nil _)
    · exact fault

theorem optional (e : Event) : Gives (Walk.optional read e) fun x => ∀ a ∈ x, P a := by
  refine then_ fun missing => ?_
  split
  · exact pure fun _ ha => absurd ha (Option.not_mem_none _)
  · refine (hread e).map fun a ha => ?_
    rintro _ ⟨⟩
    exact ha

end

theorem mapping {take : σ → String → Walk σ} {S : σ → Prop}
    (htake : ∀ s key, S s → Gives (take s key) S) {start : σ} (hs : S start) (e : Event) :
    Gives (Walk.mapping take start e) S := by
  unfold Walk.mapping
  split
  · exact collection (fun s hs => then_ fun key => htake s key hs) hs
  · split
    · exact pure hs
    · exact fault

theorem dict (read : Event → Walk α) (e : Event) : Gives (Walk.dict read e) Dict.Sorted :=
  mapping (fun _ key hd => then_ fun a => pure (hd.insert key a)) .nil e

/-- A record keeps what each of its fields keeps. -/
theorem record {known : List String} {take : σ → String → Event → Walk σ} {S : σ → Prop}
    (htake : ∀ s key e, S s → Gives (take s key e) S) {start : σ} (hs : S start) (e : Event) :
    Gives (Walk.record known take start e) S := by
  refine map (P := fun p : σ × List String => S p.1)
    (mapping (S := fun p : σ × List String => S p.1) (fun p key hp => ?_) hs e) fun _ hp => hp
  split
  · exact then_ fun _ => pure hp
  · split
    · exact fault
    · exact (node fun e => htake p.1 key e hp).map fun _ hs => hs

theorem word (e : Event) : Gives (Walk.word e) (· < Nat.pow 2 64) := by
  unfold Walk.word
  split
  · split
    · refine orFault fun n hn => ?_
      simpa using (Option.filter_eq_some_iff.mp hn).2
    · exact fault
  · exact fault

theorem jsonWithin (fuel : Nat) (e : Event) : Gives (Walk.jsonWithin fuel e) Json.InOrder := by
  induction fuel generalizing e with
  | zero => exact fault
  | succ fuel ih =>
    cases e with
    | seqStart anchor tag =>
      rw [Walk.jsonWithin]
      split
      · exact fault
      · exact (items ih).map fun _ hvalues => Json.inOrder_arr hvalues
    | mapStart anchor tag =>
      rw [Walk.jsonWithin]
      split
      · exact fault
      · refine map (P := fun fields => (Json.obj fields).InOrder) (collection (fun d hd => ?_) rfl)
          fun _ hfields => hfields
        exact then_ fun key => (node ih).map fun value hvalue =>
          Json.inOrder_obj_insert hd hvalue key
    | _ => exact then_ fun v => fitting fun _ => Decode.inOrder_of_json

theorem json (e : Event) : Gives (Walk.json e) Json.InOrder := jsonWithin _ e

/-- What the only document of a text gives. -/
theorem readOnly {read : Event → Walk α} (hread : ∀ e, Gives (read e) P) {text : String} {a : α}
    (h : Document.readOnly text read = .ok a) : P a := by
  unfold Document.readOnly at h
  split at h
  · obtain ⟨⟨own, place⟩, hrun, h⟩ := Outcome.bind_eq_ok.mp h
    have hown := node hread _ _ own place hrun
    dsimp only at h
    split at h
    · cases h
      exact hown
    · cases h
  · obtain ⟨_, -, h⟩ := Outcome.bind_eq_ok.mp h
    cases h
  · cases h

end Gives

end ResourceModels.Yaml.Walk
