import Mathlib.Data.List.Perm.Subperm
import ResourceModels.Proofs.Host.Following

/-!
# What a walk meets

A walk meets the nodes that names lead to, through links if these are followed. It goes wrong exactly
at a link that leads nowhere. Where no directory is reached from itself, it never comes back to a
directory that it is in, so it is no deeper than there are directories.
-/

namespace ResourceModels.Host

/-- A name leads from a directory to a node, which is a link only if links are not followed. -/
def Steps (h : Host) (follow : Bool) (place : List String) (name : String) (found : List String)
    (n : Node) : Prop :=
  IsName name ∧ if follow then ∃ cost, Leads h cost place [name] found n
    else h.node? (name :: place) = some n ∧ found = name :: place

/-- Names lead from a directory to a node, one after the other. -/
inductive Reaches (h : Host) (follow : Bool) :
    List String → List String → List String → Node → Prop
  | here (place : List String) : Reaches h follow place [] place .dir
  | last {place found : List String} {name : String} {n : Node}
      (hstep : Steps h follow place name found n) (hn : n ≠ .dir) :
      Reaches h follow place [name] found n
  | step {place mid rest found : List String} {name : String} {n : Node}
      (hstep : Steps h follow place name mid .dir) (hrest : Reaches h follow mid rest found n) :
      Reaches h follow place (name :: rest) found n

/-- From a directory, names lead to one that holds a link which leads nowhere but is followed. -/
def Lost (h : Host) (follow : Bool) (place : List String) : Prop :=
  follow = true ∧ ∃ segments mid name target, Reaches h follow place segments mid .dir ∧
    IsName name ∧ h.node? (name :: mid) = some (.link target) ∧
      ∀ cost found n, ¬Leads h cost mid [name] found n

section

variable {h : Host} {follow : Bool} {place mid found found' segments rest : List String}
  {name : String} {n n' : Node}

theorem Steps.unique (hstep : Steps h follow place name found n)
    (hstep' : Steps h follow place name found' n') : found = found' ∧ n = n' := by
  obtain ⟨_, hstep⟩ := hstep
  obtain ⟨_, hstep'⟩ := hstep'
  cases follow with
  | true =>
    obtain ⟨cost, hleads⟩ := hstep
    obtain ⟨cost', hleads'⟩ := hstep'
    exact (hleads.unique hleads').2
  | false =>
    obtain ⟨hnode, rfl⟩ := hstep
    obtain ⟨hnode', rfl⟩ := hstep'
    exact ⟨rfl, Option.some.inj (hnode.symm.trans hnode')⟩

theorem Steps.exists_node? (hstep : Steps h follow place name found n) :
    ∃ n, h.node? (name :: place) = some n := by
  obtain ⟨hname, hstep⟩ := hstep
  cases follow with
  | true =>
    obtain ⟨cost, hleads⟩ := hstep
    cases hleads with
    | idle hidle => exact absurd hidle hname.isStep.not_idle
    | up => exact absurd rfl hname.plain.2.2
    | dir _ hnode => exact ⟨_, hnode⟩
    | file _ hnode => exact ⟨_, hnode⟩
    | link _ hnode => exact ⟨_, hnode⟩
  | false => exact ⟨n, hstep.1⟩

theorem IsTree.node?_of_steps (htree : IsTree h) (hplace : IsPlace place)
    (hdir : h.node? place = some .dir) (hstep : Steps h follow place name found n) :
    IsPlace found ∧ h.node? found = some n := by
  obtain ⟨hname, hstep⟩ := hstep
  cases follow with
  | true =>
    obtain ⟨cost, hleads⟩ := hstep
    obtain ⟨hfound, hnode, _⟩ := htree.node?_of_leads hleads hplace hdir
    exact ⟨hfound, hnode⟩
  | false =>
    obtain ⟨hnode, rfl⟩ := hstep
    exact ⟨List.forall_mem_cons.mpr ⟨hname, hplace⟩, hnode⟩

/-- What is no link is met as it stands. -/
theorem steps_of_node? (hname : IsName name) (hnode : h.node? (name :: place) = some n)
    (hlink : follow = true → ∀ target, n ≠ .link target) :
    Steps h follow place name (name :: place) n := by
  refine ⟨hname, ?_⟩
  cases follow with
  | true =>
    cases n with
    | dir => exact ⟨0, .dir hname.isStep hnode (.here _)⟩
    | file => exact ⟨0, .file hname.isStep hnode⟩
    | link target => exact absurd rfl (hlink rfl target)
  | false => exact ⟨hnode, rfl⟩

theorem Reaches.append (hleft : Reaches h follow place segments mid .dir)
    (hright : Reaches h follow mid rest found n) :
    Reaches h follow place (segments ++ rest) found n := by
  generalize hdir : Node.dir = d at hleft
  induction hleft with
  | here => exact hright
  | last _ hn => exact absurd hdir.symm hn
  | step hstep _ ih => exact .step hstep (ih hright hdir)

/-- The first of some names leads to a directory, or it is the only one. -/
theorem reaches_cons_iff : Reaches h follow place (name :: rest) found n ↔
    (∃ mid, Steps h follow place name mid .dir ∧ Reaches h follow mid rest found n) ∨
      rest = [] ∧ n ≠ .dir ∧ Steps h follow place name found n := by
  constructor
  · intro hreaches
    cases hreaches with
    | last hstep hn => exact .inr ⟨rfl, hn, hstep⟩
    | step hstep hrest => exact .inl ⟨_, hstep, hrest⟩
  · rintro (⟨mid, hstep, hrest⟩ | ⟨rfl, hn, hstep⟩)
    · exact .step hstep hrest
    · exact .last hstep hn

/-- What some names reach is settled by the host. -/
theorem Reaches.unique (hreaches : Reaches h follow place segments found n)
    (hreaches' : Reaches h follow place segments found' n') : found = found' ∧ n = n' := by
  induction hreaches with
  | here =>
    cases hreaches'
    exact ⟨rfl, rfl⟩
  | last hstep hn =>
    rcases reaches_cons_iff.mp hreaches' with ⟨mid, hmid, _⟩ | ⟨_, _, hstep'⟩
    · exact absurd (hstep.unique hmid).2 hn
    · exact hstep.unique hstep'
  | step hstep _ ih =>
    rcases reaches_cons_iff.mp hreaches' with ⟨mid, hmid, hrest⟩ | ⟨_, hn, hstep'⟩
    · obtain ⟨rfl, _⟩ := hstep.unique hmid
      exact ih hrest
    · exact absurd (hstep.unique hstep').2.symm hn

theorem Reaches.names (hreaches : Reaches h follow place segments found n) :
    ∀ s ∈ segments, IsName s := by
  induction hreaches with
  | here => exact fun _ hs => absurd hs List.not_mem_nil
  | last hstep => exact List.forall_mem_cons.mpr ⟨hstep.1, fun _ hs => absurd hs List.not_mem_nil⟩
  | step hstep _ ih => exact List.forall_mem_cons.mpr ⟨hstep.1, ih⟩

theorem Reaches.ne_nil (hreaches : Reaches h follow place segments found n) (hn : n ≠ .dir) :
    segments ≠ [] := by
  rintro rfl
  cases hreaches
  exact hn rfl

theorem IsTree.node?_of_reaches (htree : IsTree h) (hplace : IsPlace place)
    (hdir : h.node? place = some .dir) (hreaches : Reaches h follow place segments found n) :
    IsPlace found ∧ h.node? found = some n := by
  induction hreaches with
  | here => exact ⟨hplace, hdir⟩
  | last hstep => exact htree.node?_of_steps hplace hdir hstep
  | step hstep _ ih =>
    obtain ⟨hmid, hnode⟩ := htree.node?_of_steps hplace hdir hstep
    exact ih hmid hnode

/-- Where links are followed, names reach what they lead to. -/
theorem reaches_true_iff : Reaches h true place segments found n ↔
    (∀ s ∈ segments, IsName s) ∧ ∃ cost, Leads h cost place segments found n := by
  constructor
  · intro hreaches
    refine ⟨hreaches.names, ?_⟩
    induction hreaches with
    | here => exact ⟨0, .here _⟩
    | last hstep => exact hstep.2
    | step hstep _ ih =>
      obtain ⟨first, hfirst⟩ := hstep.2
      obtain ⟨more, hmore⟩ := ih
      exact ⟨first + more, hfirst.append hmore⟩
  · rintro ⟨hnames, cost, hleads⟩
    induction segments generalizing place cost with
    | nil =>
      cases hleads
      exact .here _
    | cons name rest ih =>
      obtain ⟨hname, hrest⟩ := List.forall_mem_cons.mp hnames
      by_cases hnil : rest = []
      · subst hnil
        by_cases hn : n = .dir
        · subst hn
          exact .step ⟨hname, cost, hleads⟩ (.here found)
        · exact .last ⟨hname, cost, hleads⟩ hn
      · have hcut : Leads h cost place ([name] ++ rest) found n := hleads
        obtain ⟨first, more, mid, _, hfirst, hmore⟩ := hcut.exists_of_append hnil
        exact .step ⟨hname, first, hfirst⟩ (ih hrest more hmore)

/-- What a node stands in are directories. -/
theorem IsTree.dir_of_append (htree : IsTree h) {front : List String}
    (hplace : IsPlace (front ++ place)) (hnode : h.node? (front ++ place) = some n)
    (hne : front ≠ []) : h.node? place = some .dir := by
  induction front generalizing n with
  | nil => exact absurd rfl hne
  | cons name front ih =>
    have hparent := htree.parent_eq hplace hnode
    by_cases hnil : front = []
    · rw [hnil] at hparent
      exact hparent
    · exact ih (List.forall_mem_cons.mp hplace).2 hparent hnil

/-- Where links are not followed, names reach what stands where they spell. -/
theorem IsTree.reaches_false_iff (htree : IsTree h) (hplace : IsPlace place)
    (hdir : h.node? place = some .dir) : Reaches h false place segments found n ↔
      (∀ s ∈ segments, IsName s) ∧ found = segments.reverse ++ place ∧ h.node? found = some n := by
  constructor
  · intro hreaches
    refine ⟨hreaches.names, ?_, (htree.node?_of_reaches hplace hdir hreaches).2⟩
    clear hplace hdir
    induction hreaches with
    | here => rfl
    | last hstep => exact hstep.2.2
    | step hstep _ ih =>
      rw [ih, hstep.2.2, List.reverse_cons, List.append_assoc]
      rfl
  · rintro ⟨hnames, rfl, hnode⟩
    induction segments generalizing place with
    | nil =>
      obtain rfl := Option.some.inj (hdir.symm.trans hnode)
      exact .here place
    | cons name rest ih =>
      obtain ⟨hname, hrest⟩ := List.forall_mem_cons.mp hnames
      rw [List.reverse_cons, List.append_assoc, List.singleton_append] at hnode ⊢
      have hbelow : IsPlace (name :: place) := List.forall_mem_cons.mpr ⟨hname, hplace⟩
      have hwhole : IsPlace (rest.reverse ++ name :: place) :=
        List.forall_mem_append.mpr ⟨fun s hs => hrest s (List.mem_reverse.mp hs), hbelow⟩
      have hone : ∀ n, h.node? (name :: place) = some n →
          Steps h false place name (name :: place) n := fun n hn => ⟨hname, hn, rfl⟩
      by_cases hnil : rest = []
      · subst hnil
        by_cases hn : n = .dir
        · subst hn
          exact .step (hone _ hnode) (.here _)
        · exact .last (hone _ hnode) hn
      · have hmid := htree.dir_of_append hwhole hnode (List.reverse_eq_nil_iff.not.mpr hnil)
        exact .step (hone _ hmid) (ih hbelow hmid hrest hnode)

/-- There are no more directories than nodes, but for the root. -/
theorem length_le_of_places {places : List (List String)} (hnodup : places.Nodup)
    (hplaces : ∀ place ∈ places, IsPlace place ∧ ∃ n, h.node? place = some n) :
    places.length ≤ h.nodes.length + 1 := by
  have hnodup' : (places.erase []).Nodup := hnodup.erase []
  have hown : ∀ place ∈ places.erase [], place ∈ places ∧ place ≠ [] := fun place hplace => by
    rw [hnodup.mem_erase_iff] at hplace
    exact ⟨hplace.2, hplace.1⟩
  have hkeys : ((places.erase []).map key).Nodup := hnodup'.map_on fun place hplace place' hplace' =>
    (hplaces place (hown place hplace).1).1.key_inj (hplaces place' (hown place' hplace').1).1
      (hown place hplace).2 (hown place' hplace').2
  have hsubset : (places.erase []).map key ⊆ Dict.keys h.nodes := by
    intro k hk
    obtain ⟨place, hplace, rfl⟩ := List.mem_map.mp hk
    obtain ⟨hmem, hne⟩ := hown place hplace
    obtain ⟨n, hn⟩ := (hplaces place hmem).2
    exact mem_keys_of_node? hne hn
  have hlength := (List.subperm_of_subset hkeys hsubset).length_le
  rw [List.length_map, Dict.keys, List.length_map, List.length_erase] at hlength
  split at hlength <;> omega

end

end ResourceModels.Host
