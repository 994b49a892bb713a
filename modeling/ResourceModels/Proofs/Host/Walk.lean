import ResourceModels.Proofs.Host.Reaching

/-!
# The list of a walk

The list of a walk holds what names reach from its start, each node with the path and the names that
lead to it. There is none exactly if a link is lost that is to be followed.
-/

namespace ResourceModels.Host

/-- A walk from a start in the host: what it goes by is enough to follow each link, and no directory
is reached from itself. -/
structure Walkable (h : Host) (follow : Bool) (base : String) (start : List String) : Prop where
  tree : IsTree h
  place : IsPlace start
  dir : h.node? start = some .dir
  acyclic : ∀ v mid w, Reaches h follow start v mid .dir → Reaches h follow mid w mid .dir → w = []
  stat : follow = true → ∀ v mid name found n, Reaches h follow start v mid .dir → IsName name →
    (stat h true (HostPath.join (pathTo base v) name) = .ok (found, n) ↔
      ∃ cost, Leads h cost mid [name] found n)

/-- A node is met below another one, where names lead to it from there. -/
def Meets (h : Host) (follow : Bool) (m met : Met) : Prop :=
  ∃ segments, Reaches h follow m.place segments met.place met.node ∧
    met.path = pathTo m.path segments ∧ met.segments = m.segments ++ segments

/-- A node is met by way of a name. -/
def MeetsBy (h : Host) (follow : Bool) (m : Met) (name : String) (met : Met) : Prop :=
  ∃ segments, Reaches h follow m.place (name :: segments) met.place met.node ∧
    met.path = pathTo m.path (name :: segments) ∧ met.segments = m.segments ++ name :: segments

/-- The name is that of a lost link, or one is lost below it. -/
def LostBy (h : Host) (follow : Bool) (place : List String) (name : String) : Prop :=
  (follow = true ∧ (∃ target, h.node? (name :: place) = some (.link target)) ∧
    ∀ cost found n, ¬Leads h cost place [name] found n) ∨
  ∃ mid, Steps h follow place name mid .dir ∧ Lost h follow mid

/-- A directory that the walk comes to, and those it is in by then. -/
structure Walking (h : Host) (follow : Bool) (base : String) (start : List String)
    (around : List Around) (m : Met) : Prop where
  node : m.node = .dir
  path : ∃ v, Reaches h follow start v m.place .dir ∧ m.path = pathTo base v
  inside : ∀ a ∈ around, (∃ v, Reaches h follow start v a.place .dir) ∧
    ∃ w, w ≠ [] ∧ Reaches h follow a.place w m.place .dir
  nodup : (around.map (·.place)).Nodup

/-- What goes wrong in one case and else lists all that there is of something. -/
def Lists {ε α : Type} (x : Except ε (List α)) (lost : Prop) (meets : α → Prop) : Prop :=
  (lost → ∃ f, x = .error f) ∧ (¬lost → ∃ all, x = .ok all ∧ ∀ met, met ∈ all ↔ meets met)

section

variable {h : Host} {follow : Bool} {base name : String} {start place found : List String}
  {around : List Around} {m : Met} {n : Node} {ε α : Type} {x y : Except ε (List α)}
  {lost lost' : Prop} {meets meets' : α → Prop}

theorem Lists.append (hx : Lists x lost meets) (hy : Lists y lost' meets') :
    Lists (do return (← x) ++ (← y)) (lost ∨ lost') fun met => meets met ∨ meets' met := by
  constructor
  · intro hlost
    by_cases hfirst : lost
    · obtain ⟨f, rfl⟩ := hx.1 hfirst
      exact ⟨f, rfl⟩
    · obtain ⟨all, rfl, _⟩ := hx.2 hfirst
      obtain ⟨f, rfl⟩ := hy.1 (hlost.resolve_left hfirst)
      exact ⟨f, rfl⟩
  · intro hnone
    obtain ⟨hfirst, hrest⟩ := not_or.mp hnone
    obtain ⟨all, rfl, hall⟩ := hx.2 hfirst
    obtain ⟨more, rfl, hmore⟩ := hy.2 hrest
    exact ⟨all ++ more, rfl, fun met => by rw [List.mem_append, hall, hmore]⟩

theorem Lists.congr (hx : Lists x lost meets) (hlost : lost ↔ lost')
    (hmeets : ∀ met, meets met ↔ meets' met) : Lists x lost' meets' := by
  obtain rfl := propext hlost
  exact ⟨hx.1, fun hnone => by simpa only [hmeets] using hx.2 hnone⟩

theorem lists_ok {all : List α} : Lists (.ok all : Except ε (List α)) False (· ∈ all) :=
  ⟨False.elim, fun _ => ⟨all, rfl, fun _ => Iff.rfl⟩⟩

theorem lost_iff (hplace : IsPlace place) (htree : IsTree h) :
    Lost h follow place ↔ ∃ name ∈ names h place, LostBy h follow place name := by
  constructor
  · rintro ⟨rfl, segments, mid, name, target, hreaches, hname, hlink, hnone⟩
    rcases segments with _ | ⟨first, rest⟩
    · cases hreaches
      exact ⟨name, (mem_names hplace).mpr ⟨hname.slash_notMem, _, hlink⟩,
        .inl ⟨rfl, ⟨target, hlink⟩, hnone⟩⟩
    rcases reaches_cons_iff.mp hreaches with ⟨next, hstep, hrest⟩ | ⟨_, hn, _⟩
    · exact ⟨first, (mem_names hplace).mpr ⟨hstep.1.slash_notMem, hstep.exists_node?⟩,
        .inr ⟨next, hstep, rfl, rest, mid, name, target, hrest, hname, hlink, hnone⟩⟩
    · exact absurd rfl hn
  · rintro ⟨name, hmem, ⟨rfl, ⟨target, hlink⟩, hnone⟩ | ⟨next, hstep, rfl, rest, mid, last, target,
      hrest, hlast⟩⟩
    · exact ⟨rfl, [], place, name, target, .here place, htree.isName_of_mem_names hplace hmem, hlink,
        hnone⟩
    · exact ⟨rfl, name :: rest, mid, last, target, .step hstep hrest, hlast⟩

theorem meets_iff (hplace : IsPlace m.place) (hdir : m.node = .dir) {met : Met} :
    Meets h follow m met ↔ met = m ∨ ∃ name ∈ names h m.place, MeetsBy h follow m name met := by
  constructor
  · rintro ⟨segments, hreaches, hpath, hsegments⟩
    rcases segments with _ | ⟨name, rest⟩
    · left
      obtain ⟨path, own, place, node⟩ := met
      obtain ⟨path', own', place', node'⟩ := m
      cases hdir
      cases hpath
      cases (List.append_nil own').symm.trans hsegments.symm
      cases hreaches
      rfl
    refine .inr ⟨name, ?_, rest, hreaches, hpath, hsegments⟩
    rcases reaches_cons_iff.mp hreaches with ⟨_, hstep, _⟩ | ⟨_, _, hstep⟩ <;>
      exact (mem_names hplace).mpr ⟨hstep.1.slash_notMem, hstep.exists_node?⟩
  · rintro (rfl | ⟨name, _, rest, hmeets⟩)
    · exact ⟨[], hdir ▸ .here _, rfl, (List.append_nil _).symm⟩
    · exact ⟨name :: rest, hmeets⟩

/-- A link is met as what it leads to, unless the walk is in there already. -/
theorem reach_link {path target : String} {segments : List String}
    (hstat : stat h true path = .ok (found, n)) (hnew : n = .dir → ∀ a ∈ around, a.place ≠ found) :
    reach h true around path segments place (.link target) = .ok ⟨path, segments, found, n⟩ := by
  unfold reach
  simp only [hstat]
  cases n with
  | file => rfl
  | link => rfl
  | dir =>
    have hnone : around.find? (·.place = found) = none := List.find?_eq_none.mpr fun a ha =>
      decide_eq_false (hnew rfl a ha) ▸ Bool.false_ne_true
    simp only [hnone]

theorem exists_reach_error {path target : String} {segments : List String}
    (hstat : ∀ found n, stat h true path ≠ .ok (found, n)) :
    ∃ f, reach h true around path segments place (.link target) = .error f := by
  unfold reach
  cases hfailed : stat h true path with
  | error cause => exact ⟨_, rfl⟩
  | ok r => exact absurd hfailed (hstat r.1 r.2)

theorem walkNode_of_ne_dir {fuel : Nat} (hn : m.node ≠ .dir) :
    walkNode h follow fuel around m = .ok [m] := by
  cases fuel with
  | zero => rw [walkNode]
  | succ fuel =>
    rw [walkNode]
    cases hnode : m.node with
    | dir => exact absurd hnode hn
    | file => rfl
    | link => rfl

/-- Where a name leads to a directory, what is lost by way of it is lost in there. -/
theorem lostBy_iff_of_steps (hstep : Steps h follow place name found n) :
    LostBy h follow place name ↔ n = .dir ∧ Lost h follow found := by
  constructor
  · rintro (⟨rfl, _, hnone⟩ | ⟨mid, hmid, hlost⟩)
    · obtain ⟨cost, hleads⟩ := hstep.2
      exact absurd hleads (hnone cost found n)
    · obtain ⟨rfl, rfl⟩ := hstep.unique hmid
      exact ⟨rfl, hlost⟩
  · rintro ⟨rfl, hlost⟩
    exact .inr ⟨found, hstep, hlost⟩

/-- What is met by way of a name that leads to a directory is what is met below it. -/
theorem meetsBy_iff_of_dir (hstep : Steps h follow m.place name found .dir) {met : Met} :
    MeetsBy h follow m name met ↔
      Meets h follow ⟨HostPath.join m.path name, m.segments ++ [name], found, .dir⟩ met := by
  refine exists_congr fun segments => ?_
  rw [reaches_cons_iff, List.append_assoc]
  refine and_congr_left fun _ => ⟨?_, fun hreaches => .inl ⟨found, hstep, hreaches⟩⟩
  rintro (⟨mid, hmid, hreaches⟩ | ⟨_, hn, hother⟩)
  · exact (hstep.unique hmid).1 ▸ hreaches
  · exact absurd (hstep.unique hother).2.symm hn

/-- By way of a name that leads to no directory, one node is met. -/
theorem meetsBy_iff_of_ne_dir (hstep : Steps h follow m.place name found n) (hn : n ≠ .dir)
    {met : Met} : MeetsBy h follow m name met ↔
      met = ⟨HostPath.join m.path name, m.segments ++ [name], found, n⟩ := by
  constructor
  · rintro ⟨segments, hreaches, hpath, hsegments⟩
    rcases reaches_cons_iff.mp hreaches with ⟨mid, hmid, _⟩ | ⟨rfl, _, hother⟩
    · exact absurd (hstep.unique hmid).2 hn
    obtain ⟨hplace, hnode⟩ := hstep.unique hother
    obtain ⟨path, own, place, node⟩ := met
    obtain rfl : found = place := hplace
    obtain rfl : n = node := hnode
    obtain rfl : path = HostPath.join m.path name := hpath
    obtain rfl : own = m.segments ++ [name] := hsegments
    rfl
  · rintro rfl
    exact ⟨[], .last hstep hn, rfl, rfl⟩

namespace Walkable

variable (hwalk : Walkable h follow base start)

include hwalk

theorem isPlace (hm : Walking h follow base start around m) :
    IsPlace m.place ∧ h.node? m.place = some .dir := by
  obtain ⟨v, hv, _⟩ := hm.path
  exact hwalk.tree.node?_of_reaches hwalk.place hwalk.dir hv

/-- The directories that the walk is in differ from each other and from the one it comes to. -/
theorem nodup (hm : Walking h follow base start around m) :
    (m.place :: around.map (·.place)).Nodup := by
  refine List.nodup_cons.mpr ⟨fun hmem => ?_, hm.nodup⟩
  obtain ⟨a, ha, hplace⟩ := List.mem_map.mp hmem
  obtain ⟨⟨v, hv⟩, w, hne, hw⟩ := hm.inside a ha
  exact hne (hwalk.acyclic v a.place w hv (hplace ▸ hw))

/-- So the walk is in no more directories than there are nodes. -/
theorem length_le (hm : Walking h follow base start around m) :
    around.length ≤ h.nodes.length := by
  have hlength := length_le_of_places (hwalk.nodup hm) (h := h) <| List.forall_mem_cons.mpr
    ⟨⟨(hwalk.isPlace hm).1, _, (hwalk.isPlace hm).2⟩, fun place hplace => by
      obtain ⟨a, ha, rfl⟩ := List.mem_map.mp hplace
      obtain ⟨⟨v, hv⟩, _⟩ := hm.inside a ha
      obtain ⟨hown, hnode⟩ := hwalk.tree.node?_of_reaches hwalk.place hwalk.dir hv
      exact ⟨hown, _, hnode⟩⟩
  rw [List.length_cons, List.length_map] at hlength
  omega

/-- The walk goes on into a directory that a name leads to. -/
theorem walking_step (hm : Walking h follow base start around m)
    (hstep : Steps h follow m.place name found .dir) :
    Walking h follow base start (⟨m.path, m.place⟩ :: around)
      ⟨HostPath.join m.path name, m.segments ++ [name], found, .dir⟩ where
  node := rfl
  path := by
    obtain ⟨v, hv, hpath⟩ := hm.path
    refine ⟨v ++ [name], hv.append (.step hstep (.here found)), ?_⟩
    rw [pathTo_concat, hpath]
  inside := by
    refine List.forall_mem_cons.mpr ⟨?_, fun a ha => ?_⟩
    · obtain ⟨v, hv, _⟩ := hm.path
      exact ⟨⟨v, hv⟩, [name], List.cons_ne_nil _ _, .step hstep (.here found)⟩
    · obtain ⟨hstart, w, hne, hw⟩ := hm.inside a ha
      exact ⟨hstart, w ++ [name], List.append_ne_nil_of_left_ne_nil hne _,
        hw.append (.step hstep (.here found))⟩
  nodup := hwalk.nodup hm

/-- No name leads from the directory that the walk comes to back to one that it is in. -/
theorem not_inside (hm : Walking h follow base start around m)
    (hstep : Steps h follow m.place name found .dir) :
    ∀ a ∈ (⟨m.path, m.place⟩ :: around : List Around), a.place ≠ found := by
  have hlast : Reaches h follow m.place [name] found .dir := .step hstep (.here found)
  refine List.forall_mem_cons.mpr ⟨?_, fun a ha => ?_⟩
  · rintro rfl
    obtain ⟨v, hv, _⟩ := hm.path
    exact absurd (hwalk.acyclic v _ [name] hv hlast) (List.cons_ne_nil _ _)
  · rintro rfl
    obtain ⟨⟨v, hv⟩, w, hne, hw⟩ := hm.inside a ha
    have hloop := hwalk.acyclic v _ (w ++ [name]) hv (hw.append hlast)
    exact hne (List.append_eq_nil_iff.mp hloop).1

/-- A name leads to what is met there, or it is that of a lost link. -/
theorem reach_spec (hm : Walking h follow base start around m) (hname : IsName name)
    (hnode : h.node? (name :: m.place) = some n) :
    (∃ found n', Steps h follow m.place name found n' ∧
      reach h follow (⟨m.path, m.place⟩ :: around) (HostPath.join m.path name)
        (m.segments ++ [name]) (name :: m.place) n =
          .ok ⟨HostPath.join m.path name, m.segments ++ [name], found, n'⟩) ∨
    (∃ f, reach h follow (⟨m.path, m.place⟩ :: around) (HostPath.join m.path name)
        (m.segments ++ [name]) (name :: m.place) n = .error f) ∧
      follow = true ∧ (∃ target, n = .link target) ∧
        ∀ cost found n', ¬Leads h cost m.place [name] found n' := by
  by_cases hlink : follow = true ∧ ∃ target, n = .link target
  · obtain ⟨rfl, target, rfl⟩ := hlink
    obtain ⟨v, hv, hpath⟩ := hm.path
    have hstat := fun found n => hwalk.stat rfl v m.place name found n hv hname
    rw [← hpath] at hstat
    by_cases hleads : ∃ found n' cost, Leads h cost m.place [name] found n'
    · obtain ⟨found, n', cost, hleads⟩ := hleads
      have hstep : Steps h true m.place name found n' := ⟨hname, cost, hleads⟩
      refine .inl ⟨found, n', hstep, reach_link ((hstat found n').mpr ⟨cost, hleads⟩) ?_⟩
      rintro rfl
      exact hwalk.not_inside hm hstep
    · refine .inr ⟨exists_reach_error fun found n' hfound => hleads ?_, rfl, ⟨target, rfl⟩,
        fun cost found n' h => hleads ⟨found, n', cost, h⟩⟩
      obtain ⟨cost, h⟩ := (hstat found n').mp hfound
      exact ⟨found, n', cost, h⟩
  · refine .inl ⟨name :: m.place, n, steps_of_node? hname hnode fun hfollow target hn =>
      hlink ⟨hfollow, target, hn⟩, ?_⟩
    unfold reach
    split
    · exact absurd ⟨rfl, _, rfl⟩ hlink
    · rfl

/-- What is listed from a name on, if this holds of what is listed from each directory. -/
theorem lists_name {fuel : Nat} (hm : Walking h follow base start around m)
    (ih : ∀ {around m}, Walking h follow base start around m →
      h.nodes.length < fuel + around.length →
      Lists (walkNode h follow fuel around m) (Lost h follow m.place) (Meets h follow m))
    (hfuel : h.nodes.length < fuel + (around.length + 1)) (hname : IsName name)
    (hnode : h.node? (name :: m.place) = some n) :
    Lists (do
      let met ← reach h follow (⟨m.path, m.place⟩ :: around) (HostPath.join m.path name)
        (m.segments ++ [name]) (name :: m.place) n
      walkNode h follow fuel (⟨m.path, m.place⟩ :: around) met)
      (LostBy h follow m.place name) (MeetsBy h follow m name) := by
  rcases hwalk.reach_spec hm hname hnode with
    ⟨found, n', hstep, hreach⟩ | ⟨⟨f, hreach⟩, hfollow, ⟨target, rfl⟩, hnone⟩
  · rw [hreach]
    change Lists (walkNode ..) _ _
    by_cases hdir : n' = .dir
    · subst hdir
      exact (ih (hwalk.walking_step hm hstep) hfuel).congr
        (by rw [lostBy_iff_of_steps hstep, eq_self, true_and])
        fun met => (meetsBy_iff_of_dir hstep).symm
    · rw [walkNode_of_ne_dir hdir]
      exact lists_ok.congr (by rw [lostBy_iff_of_steps hstep, eq_false hdir, false_and])
        fun met => by rw [meetsBy_iff_of_ne_dir hstep hdir, List.mem_singleton]
  · rw [hreach]
    exact ⟨fun _ => ⟨f, rfl⟩, fun hkept => absurd (.inl ⟨hfollow, ⟨target, hnode⟩, hnone⟩) hkept⟩

theorem lists_names {fuel : Nat} (hm : Walking h follow base start around m)
    (ih : ∀ {around m}, Walking h follow base start around m →
      h.nodes.length < fuel + around.length →
      Lists (walkNode h follow fuel around m) (Lost h follow m.place) (Meets h follow m))
    (hfuel : h.nodes.length < fuel + (around.length + 1)) {all : List String}
    (hall : ∀ name ∈ all, name ∈ names h m.place) :
    Lists (walkNames h follow fuel (⟨m.path, m.place⟩ :: around) m all)
      (∃ name ∈ all, LostBy h follow m.place name)
      fun met => ∃ name ∈ all, MeetsBy h follow m name met := by
  induction all with
  | nil =>
    rw [walkNames]
    exact lists_ok.congr (by simp) fun met => by simp
  | cons name rest ihAll =>
    obtain ⟨hmem, hrest⟩ := List.forall_mem_cons.mp hall
    have hplace := (hwalk.isPlace hm).1
    obtain ⟨_, n, hnode⟩ := (mem_names hplace).mp hmem
    have hname := hwalk.tree.isName_of_mem_names hplace hmem
    rw [walkNames]
    simp only [hnode]
    have hboth := (hwalk.lists_name hm ih hfuel hname hnode).append (ihAll hrest)
    rw [bind_assoc] at hboth
    refine Lists.congr hboth (List.exists_mem_cons_iff ..).symm fun met => ?_
    simp only [List.mem_cons, exists_eq_or_imp]

/-- From a directory on, all is listed that names reach from it. The fuel lasts, as every directory
that the walk is in by then takes one and is another node. -/
theorem lists_node {fuel : Nat} (hm : Walking h follow base start around m)
    (hfuel : h.nodes.length < fuel + around.length) :
    Lists (walkNode h follow fuel around m) (Lost h follow m.place) (Meets h follow m) := by
  induction fuel generalizing around m with
  | zero =>
    have hlength := hwalk.length_le hm
    omega
  | succ fuel ih =>
    have hplace := (hwalk.isPlace hm).1
    have hnames := hwalk.lists_names hm ih (by omega) (fun _ => id)
    rw [walkNode, hm.node]
    have hfirst : Lists (.ok [m] : Except WalkFault (List Met)) False (· ∈ [m]) := lists_ok
    exact (hfirst.append hnames).congr
      (by rw [lost_iff hplace hwalk.tree, false_or])
      fun met => by rw [meets_iff hplace hm.node, List.mem_singleton]

end Walkable

end

end ResourceModels.Host
