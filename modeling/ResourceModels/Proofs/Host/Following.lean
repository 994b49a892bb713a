import Mathlib.Data.List.Induction
import ResourceModels.Proofs.Host.Tree
import ResourceModels.Proofs.Outcome

/-!
# Paths that the machine can follow

A path of the machine leads where its segments lead, if it is not too long and takes no more links
than are followed. Where every path of names that leads somewhere can be followed, no directory is
reached from itself, as paths could then take any number of links.
-/

namespace ResourceModels.Host

variable {h : Host} {place found mid segments v w : List String} {base path name : String} {n : Node}
  {cost : Nat}

theorem stat_eq_ok_iff_locate {follow : Bool} : stat h follow path = .ok (found, n) ↔
    locate h follow path = .ok (.node found n) := by
  unfold stat
  rw [Outcome.bind_eq_ok]
  constructor
  · rintro ⟨found', hlocate, hnode⟩
    cases found' with
    | node => cases hnode; exact hlocate
    | vacant => cases hnode
  · exact fun hlocate => ⟨_, hlocate, rfl⟩

theorem stat_eq_ok_iff : stat h true path = .ok (found, n) ↔
    '\x00' ∉ path.toList ∧ path.utf8ByteSize ≤ maxPath ∧
      ∃ cost ≤ maxLinks, Leads h cost [] (Text.split (· = '/') path) found n := by
  rw [stat_eq_ok_iff_locate, locate]
  split
  · next hzero =>
    refine iff_of_false nofun fun hok => hok.1 ?_
    simpa using hzero
  next hzero =>
  split
  · next hlong => exact iff_of_false nofun fun hok => Nat.not_le.mpr hlong hok.2.1
  next hlong =>
  constructor
  · intro hwalk
    exact ⟨by simpa using hzero, Nat.not_lt.mp hlong, leads_of_walk noSlash_of_mem_split hwalk⟩
  · rintro ⟨-, -, cost, hcost, hleads⟩
    exact hleads.walk_eq hcost

theorem split_append_slash (s rest : String) : Text.split (· = '/') (s ++ "/" ++ rest) =
    Text.split (· = '/') s ++ Text.split (· = '/') rest :=
  @Text.split_append_mark (· = '/') '/' rfl s rest

theorem split_of_slash_notMem (hslash : '/' ∉ name.toList) : Text.split (· = '/') name = [name] :=
  Text.split_of_noMark fun _ hc => decide_eq_false (ne_of_mem_of_not_mem hc hslash)

/-- A trailing slash leads nowhere. -/
theorem leads_append_empty : Leads h cost place (segments ++ [""]) found .dir ↔
    Leads h cost place segments found .dir := by
  constructor
  · intro hleads
    obtain ⟨first, more, mid, rfl, hfirst, hmore⟩ :=
      hleads.exists_of_append (List.cons_ne_nil _ _)
    obtain ⟨rfl, rfl, -⟩ := hmore.unique (.idle (.inl rfl) (.here mid))
    exact hfirst
  · intro hleads
    exact hleads.append (.idle (.inl rfl) (.here found))

/-- A name that is joined to a path is looked up where the path leads. -/
theorem leads_join_iff (hbase : base ≠ "") (hname : IsName name) :
    Leads h cost [] (Text.split (· = '/') (HostPath.join base name)) found n ↔
      ∃ first more mid, first + more = cost ∧
        Leads h first [] (Text.split (· = '/') base) mid .dir ∧ Leads h more mid [name] found n := by
  have hrelative : HostPath.isAbsolute name = false := by
    rw [Bool.eq_false_iff, HostPath.isAbsolute, Ne, Text.startsWith_iff]
    rintro ⟨rest, hrest⟩
    exact hname.slash_notMem (hrest ▸ List.mem_cons_self)
  have happend : ∀ segments, Leads h cost [] (segments ++ [name]) found n ↔
      ∃ first more mid, first + more = cost ∧ Leads h first [] segments mid .dir ∧
        Leads h more mid [name] found n := fun segments =>
    ⟨fun hleads => hleads.exists_of_append (List.cons_ne_nil _ _),
      fun ⟨first, more, mid, hcost, hfirst, hmore⟩ => hcost ▸ hfirst.append hmore⟩
  rw [HostPath.join, if_neg (by simp [hrelative, hbase])]
  split
  · next hslash =>
    obtain ⟨front, rfl⟩ := Text.endsWith_iff.mp hslash
    have hempty : front ++ "/" = front ++ "/" ++ "" := String.append_empty.symm
    have hsplit : Text.split (· = '/') (front ++ "/") = Text.split (· = '/') front ++ [""] := by
      rw [hempty, split_append_slash]
      rfl
    rw [split_append_slash, split_of_slash_notMem hname.slash_notMem, happend, hsplit]
    simp only [leads_append_empty]
  · rw [split_append_slash, split_of_slash_notMem hname.slash_notMem, happend]

/-- The path that names lead along from the end of another path. -/
def pathTo (base : String) (segments : List String) : String := segments.foldl HostPath.join base

theorem join_ne_empty (hbase : base ≠ "") (name : String) : HostPath.join base name ≠ "" := by
  unfold HostPath.join
  split
  · next hwhich =>
    rintro rfl
    rcases hwhich with habsolute | hempty
    · revert habsolute
      decide
    · exact hbase hempty
  split <;> simp [String.append_eq_empty_iff, hbase]

theorem pathTo_ne_empty (hbase : base ≠ "") (segments : List String) :
    pathTo base segments ≠ "" := by
  induction segments generalizing base with
  | nil => exact hbase
  | cons name rest ih => exact ih (join_ne_empty hbase name)

theorem pathTo_concat (base : String) (segments : List String) (name : String) :
    pathTo base (segments ++ [name]) = HostPath.join (pathTo base segments) name := by
  rw [pathTo, List.foldl_append]
  rfl

/-- From where a path leads, names lead on. -/
theorem leads_pathTo_iff {first : Nat} (hbase : base ≠ "")
    (hleads : Leads h first [] (Text.split (· = '/') base) place .dir)
    (hnames : ∀ s ∈ segments, IsName s) :
    Leads h cost [] (Text.split (· = '/') (pathTo base segments)) found n ↔
      ∃ more, first + more = cost ∧ Leads h more place segments found n := by
  induction segments using List.reverseRecOn generalizing cost found n with
  | nil =>
    constructor
    · intro hown
      obtain ⟨rfl, rfl, rfl⟩ := hown.unique hleads
      exact ⟨0, rfl, .here _⟩
    · rintro ⟨more, rfl, hrest⟩
      cases hrest
      exact hleads
  | append_singleton init name ih =>
    obtain ⟨hinit, hname⟩ := List.forall_mem_append.mp hnames
    have hname := hname name (List.mem_singleton.mpr rfl)
    rw [pathTo_concat, leads_join_iff (pathTo_ne_empty hbase init) hname]
    simp only [ih hinit]
    constructor
    · rintro ⟨_, last, mid, rfl, ⟨more, rfl, hmore⟩, hlast⟩
      exact ⟨more + last, (Nat.add_assoc ..).symm, hmore.append hlast⟩
    · rintro ⟨more, rfl, hrest⟩
      obtain ⟨before, last, mid, rfl, hbefore, hlast⟩ :=
        hrest.exists_of_append (List.cons_ne_nil _ _)
      exact ⟨first + before, last, mid, Nat.add_assoc .., ⟨before, rfl, hbefore⟩, hlast⟩

/-- Wherever names lead from the end of a path, the machine can follow them. -/
def Followable (h : Host) (base : String) (place : List String) : Prop :=
  ∀ segments cost found n, (∀ s ∈ segments, IsName s) → Leads h cost place segments found n →
    stat h true (pathTo base segments) = .ok (found, n)

/-- Paths of names can be followed if none gets too long or takes too many links. -/
theorem followable_of_bounds {first : Nat} (hbase : base ≠ "")
    (hleads : Leads h first [] (Text.split (· = '/') base) place .dir)
    (hbounds : ∀ segments cost found n, (∀ s ∈ segments, IsName s) →
      Leads h cost place segments found n → '\x00' ∉ (pathTo base segments).toList ∧
        (pathTo base segments).utf8ByteSize ≤ maxPath ∧ first + cost ≤ maxLinks) :
    Followable h base place := by
  intro segments cost found n hnames hrest
  obtain ⟨hzero, hsize, hlinks⟩ := hbounds segments cost found n hnames hrest
  exact stat_eq_ok_iff.mpr ⟨hzero, hsize, _, hlinks,
    (leads_pathTo_iff hbase hleads hnames).mpr ⟨cost, rfl, hrest⟩⟩

namespace Followable

variable (hfollow : Followable h base place)

include hfollow

theorem stat_base : stat h true base = .ok (place, .dir) :=
  hfollow [] 0 place .dir (fun _ hs => absurd hs List.not_mem_nil) (.here place)

theorem stat_iff (hbase : base ≠ "") (hnames : ∀ s ∈ segments, IsName s) :
    stat h true (pathTo base segments) = .ok (found, n) ↔
      ∃ cost ≤ maxLinks, Leads h cost place segments found n := by
  constructor
  · intro hstat
    obtain ⟨-, -, first, -, hfirst⟩ := stat_eq_ok_iff.mp hfollow.stat_base
    obtain ⟨-, -, cost, hcost, hleads⟩ := stat_eq_ok_iff.mp hstat
    obtain ⟨more, rfl, hmore⟩ := (leads_pathTo_iff hbase hfirst hnames).mp hleads
    exact ⟨more, Nat.le_trans (Nat.le_add_left _ _) hcost, hmore⟩
  · rintro ⟨cost, -, hleads⟩
    exact hfollow segments cost found n hnames hleads

theorem cost_le (hbase : base ≠ "") (hnames : ∀ s ∈ segments, IsName s)
    (hleads : Leads h cost place segments found n) : cost ≤ maxLinks := by
  obtain ⟨own, hown, hsame⟩ := (hfollow.stat_iff hbase hnames).mp
    (hfollow segments cost found n hnames hleads)
  rw [(hleads.unique hsame).1]
  exact hown

end Followable

/-- Names that take no link lead where they spell. -/
theorem Leads.eq_of_cost_zero (hleads : Leads h 0 place segments found n)
    (hnames : ∀ s ∈ segments, IsName s) : found = segments.reverse ++ place := by
  generalize hzero : 0 = cost at hleads
  induction hleads with
  | here => rfl
  | idle hidle =>
    exact absurd hidle (hnames _ List.mem_cons_self).isStep.not_idle
  | up => exact absurd rfl (hnames _ List.mem_cons_self).plain.2.2
  | dir _ _ _ ih =>
    rw [ih (List.forall_mem_cons.mp hnames).2 hzero, List.reverse_cons, List.append_assoc]
    rfl
  | file => rfl
  | link => cases hzero

theorem Leads.replicate (hleads : Leads h cost place segments place .dir) (count : Nat) :
    Leads h (count * cost) place (List.replicate count segments).flatten place .dir := by
  induction count with
  | zero =>
    rw [Nat.zero_mul]
    exact .here place
  | succ count ih =>
    rw [List.replicate_succ, List.flatten_cons, Nat.succ_mul, Nat.add_comm]
    exact hleads.append ih

/-- No directory that can be reached is reached from itself. The way back would take a link, and
going it again and again would take more of them than the machine follows. -/
theorem Followable.not_leads_self (hfollow : Followable h base place) (hbase : base ≠ "")
    {first : Nat} (hv : ∀ s ∈ v, IsName s) (hfirst : Leads h first place v mid .dir)
    (hw : ∀ s ∈ w, IsName s) (hne : w ≠ []) : ¬Leads h cost mid w mid .dir := by
  intro hleads
  have hpositive : cost ≠ 0 := by
    rintro rfl
    have hlength := congrArg List.length (hleads.eq_of_cost_zero hw)
    rw [List.length_append, List.length_reverse] at hlength
    exact hne (List.length_eq_zero_iff.mp (by omega))
  have hmany := hfirst.append (hleads.replicate (maxLinks + 1))
  have hnames : ∀ s ∈ v ++ (List.replicate (maxLinks + 1) w).flatten, IsName s := by
    refine List.forall_mem_append.mpr ⟨hv, fun s hs => ?_⟩
    obtain ⟨w', hw', hs⟩ := List.mem_flatten.mp hs
    exact hw s (List.eq_of_mem_replicate hw' ▸ hs)
  have hcost := hfollow.cost_le hbase hnames hmany
  have hleast : maxLinks + 1 ≤ (maxLinks + 1) * cost :=
    Nat.le_mul_of_pos_right _ (Nat.pos_of_ne_zero hpositive)
  omega

end ResourceModels.Host
