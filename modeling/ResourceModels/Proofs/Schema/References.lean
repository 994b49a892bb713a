import Mathlib.Data.List.Lex
import Mathlib.Tactic.Choose
import ResourceModels.Proofs.OpenApi
import ResourceModels.Proofs.Schema.Orderly

/-!
# What a schema refers to

The schemas within a schema are visited in order of their positions: each before its parts, and its
parts by their keywords and then by name or number. The visit comes to every position once, so all
components that are referred to anywhere are found, each where it is first met.
-/

namespace ResourceModels.Schema

/-!
## The order of a visit
-/

/-- The number of the keyword that holds a part, as the keywords are gone through. -/
def Place.rank : Place → Nat
  | .property _ => 0
  | .items => 1
  | .additional => 2
  | .allOf _ => 3
  | .anyOf _ => 4
  | .oneOf _ => 5
  | .not => 6

/-- Whether a part of a schema is visited before another one. -/
def Place.Before : Place → Place → Prop
  | .property name, .property other => name < other
  | .allOf i, .allOf j => i < j
  | .anyOf i, .anyOf j => i < j
  | .oneOf i, .oneOf j => i < j
  | place, other => place.rank < other.rank

/-- A position is visited before those within it, and before the ones that part from it at a later
part of one schema. -/
def Precedes (position other : List Place) : Prop := List.Lex Place.Before position other

/-- A visit of all schemas within one, each with its position. -/
structure Visits (s : Schema) (visits : List (List Place × Schema)) : Prop where
  nodes : visits.map (·.2) = s.nodes
  mem : ∀ position n, (position, n) ∈ visits ↔ s.at? position = some n
  inOrder : visits.Pairwise fun v w => Precedes v.1 w.1

/-- The properties of a schema, and of every schema within it, are maps: no two have one name, and
they stand in order. -/
def PropertiesSorted (s : Schema) : Prop := ∀ n ∈ s.nodes, Dict.Sorted n.properties

instance (s : Schema) : Decidable s.PropertiesSorted :=
  inferInstanceAs (Decidable (∀ n ∈ s.nodes, n.properties.Pairwise fun p q => p.1 < q.1))

theorem Place.Before.asymm {place other : Place} (h : place.Before other) :
    ¬other.Before place := by
  cases place <;> cases other <;> simp only [Before, rank] at h ⊢ <;>
    first | exact String.lt_asymm h | omega

instance : Std.Asymm Place.Before := ⟨fun _ _ h => h.asymm⟩

theorem Place.before_of_rank_lt {place other : Place} (h : place.rank < other.rank) :
    place.Before other := by
  cases place <;> cases other <;> first | exact h | exact absurd h (Nat.lt_irrefl _)

theorem Precedes.asymm {position other : List Place} (h : Precedes position other) :
    ¬Precedes other position :=
  Std.Asymm.asymm (r := List.Lex Place.Before) _ _ h

def numbered (place : Nat → Place) (members : List Schema) : List (Place × Schema) :=
  members.zipIdx.map fun m => (place m.2, m.1)

/-- The parts that each of the keywords holds, with their places. -/
def blocks (s : Schema) : List (List (Place × Schema)) :=
  [s.properties.map fun p => (.property p.1, p.2), s.items.toList.map (.items, ·),
    (extraPart? s.additional).toList.map (.additional, ·), numbered .allOf s.allOf,
    numbered .anyOf s.anyOf, numbered .oneOf s.oneOf, s.not.toList.map (.not, ·)]

def placed (s : Schema) : List (Place × Schema) := s.blocks.flatten

/-- A step of a visit of a part, as a step of the visit of the whole. -/
def within (place : Place) (v : List Place × Schema) : List Place × Schema := (place :: v.1, v.2)

section

variable {s : Schema} {members : List Schema}

theorem PropertiesSorted.own (h : s.PropertiesSorted) : Dict.Sorted s.properties :=
  h s s.self_mem_nodes

theorem PropertiesSorted.part (h : s.PropertiesSorted) {part : Schema} (hp : part ∈ s.parts) :
    part.PropertiesSorted :=
  fun n hn => h n (nodes_subset_of_mem_parts hp hn)

/-- The properties of every schema that is read are maps. -/
theorem propertiesSorted_of_ofValue {d : Dialect} {v : Yaml.Value} (h : ofValue d v = .ok s) :
    s.PropertiesSorted :=
  fun n hn => (orderly_of_ofValue h n hn).2

theorem map_numbered (place : Nat → Place) (members : List Schema) :
    (numbered place members).map (·.2) = members := by
  rw [numbered, List.map_map]
  exact List.zipIdx_map_fst 0 members

theorem mem_numbered {place : Nat → Place} {p : Place × Schema} :
    p ∈ numbered place members ↔ ∃ i, place i = p.1 ∧ members[i]? = some p.2 := by
  rw [numbered, List.mem_map]
  constructor
  · rintro ⟨⟨part, i⟩, hm, rfl⟩
    exact ⟨i, rfl, List.mk_mem_zipIdx_iff_getElem?.mp hm⟩
  · rintro ⟨i, hplace, hpart⟩
    exact ⟨(p.2, i), List.mk_mem_zipIdx_iff_getElem?.mpr hpart, Prod.ext hplace rfl⟩

theorem pairwise_numbered (place : Nat → Place)
    (hplace : ∀ i j, i < j → (place i).Before (place j)) (members : List Schema) :
    (numbered place members).Pairwise fun p q => p.1.Before q.1 := by
  rw [numbered, List.pairwise_map, List.pairwise_iff_getElem]
  intro i j hi hj hlt
  simp only [List.getElem_zipIdx, Nat.zero_add]
  exact hplace i j hlt

theorem map_placed (s : Schema) : s.placed.map (·.2) = s.parts := by
  simp [placed, blocks, parts, map_numbered, Function.comp_def]

theorem mem_placed (h : Dict.Sorted s.properties) {place : Place} {part : Schema} :
    (place, part) ∈ s.placed ↔ s.part? place = some part := by
  cases place <;> simp [placed, blocks, part?, mem_numbered, h.get?_eq_some_iff]

theorem rank_of_mem_blocks {block : List (Place × Schema)} {i : Nat}
    (h : s.blocks[i]? = some block) : ∀ p ∈ block, p.1.rank = i := by
  have hall : ∀ b ∈ s.blocks.zipIdx, ∀ p ∈ b.1, p.1.rank = b.2 := by
    simp only [blocks, numbered, List.zipIdx_cons, List.zipIdx_nil, List.forall_mem_cons,
      List.forall_mem_map]
    exact ⟨fun _ _ => rfl, fun _ _ => rfl, fun _ _ => rfl, fun _ _ => rfl, fun _ _ => rfl,
      fun _ _ => rfl, fun _ _ => rfl, List.forall_mem_nil _⟩
  exact hall (block, i) (List.mk_mem_zipIdx_iff_getElem?.mpr h)

theorem pairwise_placed (h : Dict.Sorted s.properties) :
    s.placed.Pairwise fun p q => p.1.Before q.1 := by
  rw [placed, List.pairwise_flatten]
  constructor
  · have hsingle (place : Place) (part : Option Schema) :
        (part.toList.map (place, ·)).Pairwise fun p q => p.1.Before q.1 := by
      cases part <;> simp
    simp only [blocks, List.forall_mem_cons]
    exact ⟨List.pairwise_map.mpr h, hsingle _ _, hsingle _ _,
      pairwise_numbered .allOf (fun _ _ hlt => hlt) _,
      pairwise_numbered .anyOf (fun _ _ hlt => hlt) _,
      pairwise_numbered .oneOf (fun _ _ hlt => hlt) _, hsingle _ _,
      List.forall_mem_nil _⟩
  · -- parts of different keywords are told apart by the number of the keyword alone
    rw [List.pairwise_iff_getElem]
    intro i j hi hj hlt p hp q hq
    have hrank := rank_of_mem_blocks (List.getElem?_eq_getElem hi) p hp
    have hrank' := rank_of_mem_blocks (List.getElem?_eq_getElem hj) q hq
    exact Place.before_of_rank_lt (by rwa [hrank, hrank'])

theorem visits_of_parts (h : Dict.Sorted s.properties)
    {visitsOf : Schema → List (List Place × Schema)}
    (hparts : ∀ part ∈ s.parts, part.Visits (visitsOf part)) :
    s.Visits (([], s) :: s.placed.flatMap fun p => (visitsOf p.2).map (within p.1)) := by
  have hplaced : ∀ p ∈ s.placed, p.2.Visits (visitsOf p.2) := fun p hp =>
    hparts p.2 (map_placed s ▸ List.mem_map_of_mem hp)
  refine ⟨?_, fun position n => ?_, ?_⟩
  -- the nodes of the whole are the schema and the nodes of its parts
  · have hnodes : ∀ p ∈ s.placed, ((visitsOf p.2).map (within p.1)).map (·.2) = p.2.nodes :=
      fun p hp => (List.map_map ..).trans (hplaced p hp).nodes
    rw [List.map_cons, List.map_flatMap, nodes_eq, ← map_placed, List.flatMap_map,
      List.flatMap_congr hnodes]
  -- a position is the outermost one or leads on from the place of a part
  · rw [List.mem_cons, List.mem_flatMap]
    cases position with
    | nil => simp [at?, within, eq_comm]
    | cons place rest =>
      rw [at?, Option.bind_eq_some_iff]
      constructor
      · rintro (hnil | ⟨p, hp, hwithin⟩)
        · cases hnil
        · obtain ⟨v, hv, hwithin⟩ := List.mem_map.mp hwithin
          cases hwithin
          exact ⟨p.2, (mem_placed h).mp hp, ((hplaced p hp).mem v.1 v.2).mp hv⟩
      · rintro ⟨part, hpart, hn⟩
        have hp := (mem_placed h).mpr hpart
        exact .inr ⟨(place, part), hp, List.mem_map.mpr
          ⟨(rest, n), ((hplaced _ hp).mem rest n).mpr hn, rfl⟩⟩
  -- two steps are ordered by the schema itself, within one part, or by their parts
  · rw [List.pairwise_cons, List.pairwise_flatMap]
    refine ⟨fun w hw => ?_, fun p hp => ?_, ?_⟩
    · obtain ⟨p, -, hw⟩ := List.mem_flatMap.mp hw
      obtain ⟨v, -, rfl⟩ := List.mem_map.mp hw
      exact .nil
    · exact List.pairwise_map.mpr ((hplaced p hp).inOrder.imp .cons)
    · refine (pairwise_placed h).imp fun hbefore v hv w hw => ?_
      obtain ⟨_, -, rfl⟩ := List.mem_map.mp hv
      obtain ⟨_, -, rfl⟩ := List.mem_map.mp hw
      exact .rel hbefore

/-- A visit comes to each position once, in the order of the positions. -/
theorem exists_visits (h : s.PropertiesSorted) : ∃ visits, s.Visits visits := by
  induction s using parts_induction with
  | step s ih =>
    have hparts : ∀ part ∈ s.parts, ∃ visits, part.Visits visits :=
      fun part hp => ih part hp (h.part hp)
    choose! visitsOf hvisits using hparts
    exact ⟨_, visits_of_parts h.own hvisits⟩

end

/-!
## The components that are referred to
-/

/-- At the position there is a schema with a reference to the component. -/
def RefersAt (s : Schema) (position : List Place) (name : String) : Prop :=
  ∃ n, s.at? position = some n ∧ n.keywords.reference = some (componentRef name)

/-- A name is met somewhere before all positions at which another one is. -/
def MetBefore (meets : List Place → String → Prop) (name other : String) : Prop :=
  ∃ position, meets position name ∧ ∀ later, meets later other → Precedes position later

/-- The names that are met at any position, each once and in the order in which they are first
met. -/
structure FirstMet (meets : List Place → String → Prop) (names : List String) : Prop where
  nodup : names.Nodup
  mem : ∀ name, name ∈ names ↔ ∃ position, meets position name
  inOrder : names.Pairwise (MetBefore meets)

def ownTarget? (n : Schema) : Option String := n.keywords.reference.bind refTarget?

/-- What is met in the course of a visit. -/
def mentions (visits : List (List Place × Schema)) : List (List Place × String) :=
  visits.filterMap fun v => v.2.ownTarget?.map (v.1, ·)

theorem ownTarget?_eq_some {n : Schema} {name : String} :
    n.ownTarget? = some name ↔ n.keywords.reference = some (componentRef name) := by
  rw [ownTarget?, Option.bind_eq_some_iff]
  constructor
  · rintro ⟨reference, href, htarget⟩
    rw [href, OpenApi.refTarget?_eq_some.mp htarget]
  · exact fun href => ⟨_, href, OpenApi.refTarget?_eq_some.mpr rfl⟩

theorem mem_addName {names : List String} {name other : String} :
    other ∈ addName names name ↔ other ∈ names ∨ other = name := by
  rw [addName]
  split
  · next hmem => exact ⟨.inl, fun h => h.elim id fun heq => heq ▸ hmem⟩
  · rw [List.mem_append, List.mem_singleton]

section

variable {meets meets' : List Place → String → Prop} {names names' : List String}
  {met : List (List Place × String)} {s : Schema} {visits : List (List Place × Schema)}

theorem MetBefore.asymm {name other : String} (h : MetBefore meets name other) :
    ¬MetBefore meets other name := by
  rintro ⟨position', hposition', hlater'⟩
  obtain ⟨position, hposition, hlater⟩ := h
  exact (hlater position' hposition').asymm (hlater' position hposition)

theorem FirstMet.of_inOrder (hmem : ∀ name, name ∈ names ↔ ∃ position, meets position name)
    (horder : names.Pairwise (MetBefore meets)) : FirstMet meets names where
  nodup := horder.imp fun hbefore heq => by
    subst heq
    exact hbefore.asymm hbefore
  mem := hmem
  inOrder := horder

theorem FirstMet.unique (h : FirstMet meets names) (h' : FirstMet meets names') :
    names = names' :=
  Dict.eq_of_pairwise (fun _ _ hbefore => hbefore.asymm) h.inOrder h'.inOrder
    fun name => (h.mem name).trans (h'.mem name).symm

theorem FirstMet.congr (h : FirstMet meets names)
    (hmeets : ∀ position name, meets position name ↔ meets' position name) :
    FirstMet meets' names := by
  have heq : meets = meets' := funext fun position => funext fun name =>
    propext (hmeets position name)
  exact heq ▸ h

theorem firstMet_nil : FirstMet (fun _ _ => False) [] :=
  .of_inOrder (fun _ => by simp) .nil

/-- What is met after all else comes last, unless it was met before. -/
theorem FirstMet.addName (h : FirstMet meets names) {position : List Place} (name : String)
    (hlast : ∀ earlier own, meets earlier own → Precedes earlier position) :
    FirstMet (fun place own => meets place own ∨ (place = position ∧ own = name))
      (addName names name) := by
  have hkept : names.Pairwise
      (MetBefore fun place own => meets place own ∨ (place = position ∧ own = name)) := by
    refine h.inOrder.imp fun ⟨first, hfirst, hlater⟩ => ⟨first, .inl hfirst, ?_⟩
    rintro later (hmet | ⟨rfl, -⟩)
    · exact hlater later hmet
    · exact hlast first _ hfirst
  refine .of_inOrder (fun own => ?_) ?_
  · rw [mem_addName, h.mem, exists_or]
    simp
  · rw [Schema.addName]
    split
    · exact hkept
    · next hnew =>
      refine List.pairwise_append.mpr ⟨hkept, List.pairwise_singleton .., fun own hown => ?_⟩
      rintro _ (_ | ⟨_, ⟨⟩⟩)
      obtain ⟨first, hfirst⟩ := (h.mem own).mp hown
      refine ⟨first, .inl hfirst, ?_⟩
      -- the new name is met nowhere but here
      rintro later (hmet | ⟨rfl, -⟩)
      · exact absurd ((h.mem name).mpr ⟨later, hmet⟩) hnew
      · exact hlast first own hfirst

theorem FirstMet.foldl_addName (h : FirstMet meets names)
    (hlast : ∀ m ∈ met, ∀ earlier own, meets earlier own → Precedes earlier m.1)
    (horder : met.Pairwise fun m n => Precedes m.1 n.1) :
    FirstMet (fun place own => meets place own ∨ (place, own) ∈ met)
      ((met.map (·.2)).foldl Schema.addName names) := by
  induction met generalizing meets names with
  | nil => simpa using h
  | cons m rest ih =>
    obtain ⟨hfirst, hrest⟩ := List.pairwise_cons.mp horder
    have hadded := h.addName m.2 (hlast m List.mem_cons_self)
    have hlater : ∀ n ∈ rest, ∀ earlier own,
        (meets earlier own ∨ (earlier = m.1 ∧ own = m.2)) → Precedes earlier n.1 := by
      rintro n hn earlier own (hmet | ⟨rfl, -⟩)
      · exact hlast n (List.mem_cons_of_mem _ hn) earlier own hmet
      · exact hfirst n hn
    refine (ih hadded hlater hrest).congr fun place own => ?_
    rw [List.mem_cons, or_assoc, ← Prod.mk.injEq]

theorem mem_mentions (hvisits : s.Visits visits) {position : List Place} {name : String} :
    (position, name) ∈ mentions visits ↔ s.RefersAt position name := by
  simp only [mentions, List.mem_filterMap, Option.map_eq_some_iff, Prod.mk.injEq]
  constructor
  · rintro ⟨⟨place, n⟩, hv, own, hown, rfl, rfl⟩
    exact ⟨n, (hvisits.mem place n).mp hv, ownTarget?_eq_some.mp hown⟩
  · rintro ⟨n, hn, href⟩
    exact ⟨(position, n), (hvisits.mem position n).mpr hn, name, ownTarget?_eq_some.mpr href,
      rfl, rfl⟩

theorem pairwise_mentions (hvisits : s.Visits visits) :
    (mentions visits).Pairwise fun m n => Precedes m.1 n.1 := by
  refine List.pairwise_filterMap.mpr (hvisits.inOrder.imp fun hbefore m hm n hn => ?_)
  obtain ⟨_, -, rfl⟩ := Option.map_eq_some_iff.mp hm
  obtain ⟨_, -, rfl⟩ := Option.map_eq_some_iff.mp hn
  exact hbefore

theorem map_mentions (hvisits : s.Visits visits) :
    (mentions visits).map (·.2) = s.nodes.filterMap ownTarget? := by
  rw [← hvisits.nodes, mentions, List.map_filterMap, List.filterMap_map]
  simp [Function.comp_def]

/-- A visit comes to each position once, and the components that are listed are those that are
referred to at any position, each once and in the order in which the visit first meets them. No
other list is of this kind. -/
theorem referencedComponents_firstMet (h : s.PropertiesSorted) :
    (∃ visits, s.Visits visits) ∧
      ∀ names, names = s.referencedComponents ↔ FirstMet s.RefersAt names := by
  obtain ⟨visits, hvisits⟩ := exists_visits h
  have hrun := firstMet_nil.foldl_addName (fun _ _ _ _ hmet => hmet.elim)
    (pairwise_mentions hvisits)
  rw [map_mentions hvisits] at hrun
  have hown : FirstMet s.RefersAt s.referencedComponents :=
    hrun.congr fun position name => by rw [false_or, mem_mentions hvisits]
  exact ⟨⟨visits, hvisits⟩, fun names =>
    ⟨fun heq => heq ▸ hown, fun hnames => hnames.unique hown⟩⟩

end

/-- A schema that refers to components under every keyword, to some again and again, and twice to
what is no component of its document. -/
def scattered : Schema :=
  let foreign : Schema := { keywords := { reference := some "other.json#/components/schemas/Far" } }
  { keywords := { reference := some (componentRef "Self") }
    properties := [("a", { items := some (ref "Late"), not := some (ref "Self") }),
      ("b", { additional := some (.flag true), allOf := [foreign, ref "Early"] })]
    items := some (ref "Early")
    additional := some (.schema { anyOf := [ref "Late", ref ""] })
    allOf := [ref "All", ref "Self"]
    anyOf := [ref "Any", ref "Early"]
    oneOf := [foreign, ref "One"]
    not := some { not := some (ref "Not") } }

theorem referencedComponents_firstMet_scattered :
    scattered.PropertiesSorted ∧ (∃ visits, scattered.Visits visits) ∧
      scattered.referencedComponents =
        ["Self", "Late", "Early", "", "All", "Any", "One", "Not"] ∧
      FirstMet scattered.RefersAt scattered.referencedComponents := by
  have hsorted : scattered.PropertiesSorted := by decide
  have hnames : scattered.referencedComponents =
      ["Self", "Late", "Early", "", "All", "Any", "One", "Not"] := by decide
  obtain ⟨hvisits, hiff⟩ := referencedComponents_firstMet hsorted
  exact ⟨hsorted, hvisits, hnames, (hiff _).mp rfl⟩

end ResourceModels.Schema
