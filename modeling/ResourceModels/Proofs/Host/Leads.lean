import ResourceModels.Host
import ResourceModels.Proofs.Path.Climbing

/-!
# Where paths lead

A path leads through directories and links to a directory or a file. The machine follows a bounded
number of links on a path, which bounds the paths that it can walk and not where they lead: each
path that leads somewhere takes some number of links, and with as many it can be walked. So a path
leads on from where its first segments lead.
-/

namespace ResourceModels.Host

open ResourceModels.Path (IsPlain)

/-- A segment that may name something in a directory. -/
structure IsStep (segment : String) : Prop where
  plain : IsPlain segment
  size : segment.utf8ByteSize ≤ maxName
  noSlash : '/' ∉ segment.toList

/-- Where a link is read from that stands in a directory. -/
def linkStart (place : List String) (target : String) : List String :=
  if HostPath.isAbsolute target then [] else place

/-- From a directory, segments lead to a node, and a number of links is followed on the way. -/
inductive Leads (h : Host) : Nat → List String → List String → List String → Node → Prop
  | here (place : List String) : Leads h 0 place [] place .dir
  | idle {cost : Nat} {place rest found : List String} {segment : String} {n : Node}
      (hidle : segment = "" ∨ segment = ".") (hrest : Leads h cost place rest found n) :
      Leads h cost place (segment :: rest) found n
  | up {cost : Nat} {place rest found : List String} {n : Node}
      (hrest : Leads h cost (place.drop 1) rest found n) : Leads h cost place (".." :: rest) found n
  | dir {cost : Nat} {place rest found : List String} {segment : String} {n : Node}
      (hstep : IsStep segment) (hnode : h.node? (segment :: place) = some .dir)
      (hrest : Leads h cost (segment :: place) rest found n) :
      Leads h cost place (segment :: rest) found n
  | file {place : List String} {segment : String} {contents : ByteArray} {mode : Nat}
      (hstep : IsStep segment) (hnode : h.node? (segment :: place) = some (.file contents mode)) :
      Leads h 0 place [segment] (segment :: place) (.file contents mode)
  | link {cost : Nat} {place rest found : List String} {segment target : String} {n : Node}
      (hstep : IsStep segment) (hnode : h.node? (segment :: place) = some (.link target))
      (hrest : Leads h cost (linkStart place target) (Text.split (· = '/') target ++ rest) found n) :
      Leads h (cost + 1) place (segment :: rest) found n

variable {h : Host} {place found found' mid segments rest : List String} {segment target : String}
  {n n' : Node} {links cost cost' : Nat}

theorem IsStep.not_idle (hstep : IsStep segment) : ¬(segment = "" ∨ segment = ".") :=
  not_or.mpr ⟨hstep.1.1, hstep.1.2.1⟩

theorem noSlash_of_mem_split {path : String} :
    ∀ segment ∈ Text.split (· = '/') path, '/' ∉ segment.toList := fun _ hsegment hmem =>
  absurd (Text.noMark_of_mem_split hsegment '/' hmem) (by decide)

theorem leads_of_walk {links : Nat} (hsegments : ∀ segment ∈ segments, '/' ∉ segment.toList)
    (hwalk : walk h true links place segments = .ok (.node found n)) :
    ∃ cost ≤ links, Leads h cost place segments found n := by
  fun_induction walk h true links place segments with
  | case1 links place =>
    cases hwalk
    exact ⟨0, Nat.zero_le _, .here _⟩
  | case2 links place segment rest hidle ih =>
    obtain ⟨cost, hcost, hrest⟩ := ih (List.forall_mem_cons.mp hsegments).2 hwalk
    exact ⟨cost, hcost, .idle hidle hrest⟩
  | case3 links place rest _ ih =>
    obtain ⟨cost, hcost, hrest⟩ := ih (List.forall_mem_cons.mp hsegments).2 hwalk
    exact ⟨cost, hcost, .up hrest⟩
  | case4 => cases hwalk
  | case5 => cases hwalk
  | case6 => cases hwalk
  | case7 links place segment rest hidle hdots hsize here hnode ih =>
    obtain ⟨hslash, hslashes⟩ := List.forall_mem_cons.mp hsegments
    obtain ⟨cost, hcost, hrest⟩ := ih hslashes hwalk
    obtain ⟨hempty, hdot⟩ := not_or.mp hidle
    exact ⟨cost, hcost, .dir ⟨⟨hempty, hdot, hdots⟩, Nat.not_lt.mp hsize, hslash⟩ hnode hrest⟩
  | case8 links place segment hidle hdots hsize here contents mode hnode =>
    simp only [Except.ok.injEq, Place.node.injEq] at hwalk
    obtain ⟨rfl, rfl⟩ := hwalk
    obtain ⟨hempty, hdot⟩ := not_or.mp hidle
    have hslash := hsegments segment List.mem_cons_self
    exact ⟨0, Nat.zero_le _, .file ⟨⟨hempty, hdot, hdots⟩, Nat.not_lt.mp hsize, hslash⟩ hnode⟩
  | case9 => cases hwalk
  | case10 links place segment rest _ _ _ here target hnode hlast => cases hlast.2
  | case11 => cases hwalk
  | case12 place segment rest hidle hdots hsize here target hnode _ links start ih =>
    obtain ⟨hslash, hslashes⟩ := List.forall_mem_cons.mp hsegments
    obtain ⟨cost, hcost, hrest⟩ :=
      ih (List.forall_mem_append.mpr ⟨noSlash_of_mem_split, hslashes⟩) hwalk
    obtain ⟨hempty, hdot⟩ := not_or.mp hidle
    exact ⟨cost + 1, Nat.succ_le_succ hcost,
      .link ⟨⟨hempty, hdot, hdots⟩, Nat.not_lt.mp hsize, hslash⟩ hnode hrest⟩

/-- A path that takes no more links than may be followed can be walked. -/
theorem Leads.walk_eq (hleads : Leads h cost place segments found n) (hlinks : cost ≤ links) :
    walk h true links place segments = .ok (.node found n) := by
  induction hleads generalizing links with
  | here => rw [walk]
  | idle hidle _ ih => rw [walk, if_pos hidle, ih hlinks]
  | up _ ih => rw [walk, if_neg (by decide), if_pos rfl, ih hlinks]
  | dir hstep hnode _ ih =>
    rw [walk, if_neg hstep.not_idle, if_neg hstep.1.2.2, if_neg (Nat.not_lt.mpr hstep.2)]
    simp only [hnode, ih hlinks]
  | file hstep hnode =>
    rw [walk, if_neg hstep.not_idle, if_neg hstep.1.2.2, if_neg (Nat.not_lt.mpr hstep.2)]
    simp only [hnode, if_true]
  | link hstep hnode _ ih =>
    obtain ⟨links, rfl⟩ := Nat.exists_eq_succ_of_ne_zero (Nat.ne_of_gt (Nat.zero_lt_of_lt hlinks))
    rw [walk, if_neg hstep.not_idle, if_neg hstep.1.2.2, if_neg (Nat.not_lt.mpr hstep.2)]
    simp only [hnode, Bool.not_true, Bool.false_eq_true, and_false, if_false]
    exact ih (Nat.le_of_succ_le_succ hlinks)

/-- Where a path leads, and how many links it takes, is settled by the host. -/
theorem Leads.unique (hleads : Leads h cost place segments found n)
    (hleads' : Leads h cost' place segments found' n') :
    cost = cost' ∧ found = found' ∧ n = n' := by
  induction hleads generalizing cost' with
  | here => cases hleads'; exact ⟨rfl, rfl, rfl⟩
  | idle hidle _ ih =>
    cases hleads' with
    | idle _ hrest => exact ih hrest
    | up => simp at hidle
    | dir hstep => exact absurd hidle hstep.not_idle
    | file hstep => exact absurd hidle hstep.not_idle
    | link hstep => exact absurd hidle hstep.not_idle
  | up _ ih =>
    cases hleads' with
    | idle hidle => simp at hidle
    | up hrest => exact ih hrest
    | dir hstep => exact absurd rfl hstep.1.2.2
    | file hstep => exact absurd rfl hstep.1.2.2
    | link hstep => exact absurd rfl hstep.1.2.2
  | dir hstep hnode _ ih =>
    cases hleads' with
    | idle hidle => exact absurd hidle hstep.not_idle
    | up => exact absurd rfl hstep.1.2.2
    | dir _ _ hrest => exact ih hrest
    | file _ hnode' => cases hnode.symm.trans hnode'
    | link _ hnode' => cases hnode.symm.trans hnode'
  | file hstep hnode =>
    cases hleads' with
    | idle hidle => exact absurd hidle hstep.not_idle
    | up => exact absurd rfl hstep.1.2.2
    | dir _ hnode' => cases hnode.symm.trans hnode'
    | file _ hnode' =>
      cases hnode.symm.trans hnode'
      exact ⟨rfl, rfl, rfl⟩
    | link _ hnode' => cases hnode.symm.trans hnode'
  | link hstep hnode _ ih =>
    cases hleads' with
    | idle hidle => exact absurd hidle hstep.not_idle
    | up => exact absurd rfl hstep.1.2.2
    | dir _ hnode' => cases hnode.symm.trans hnode'
    | file _ hnode' => cases hnode.symm.trans hnode'
    | link _ hnode' hrest =>
      cases hnode.symm.trans hnode'
      obtain ⟨rfl, rfl, rfl⟩ := ih hrest
      exact ⟨rfl, rfl, rfl⟩

theorem Leads.append (hleads : Leads h cost place segments mid .dir)
    (hrest : Leads h cost' mid rest found n) :
    Leads h (cost + cost') place (segments ++ rest) found n := by
  generalize hdir : Node.dir = d at hleads
  induction hleads with
  | here =>
    rw [Nat.zero_add]
    exact hrest
  | idle hidle _ ih => exact .idle hidle (ih hrest hdir)
  | up _ ih => exact .up (ih hrest hdir)
  | dir hstep hnode _ ih => exact .dir hstep hnode (ih hrest hdir)
  | file => cases hdir
  | link hstep hnode _ ih =>
    have hmore := ih hrest hdir
    rw [List.append_assoc] at hmore
    rw [Nat.add_right_comm]
    exact .link hstep hnode hmore

theorem Leads.exists_of_append (hleads : Leads h cost place (segments ++ rest) found n)
    (hrest : rest ≠ []) : ∃ first more mid, first + more = cost ∧
      Leads h first place segments mid .dir ∧ Leads h more mid rest found n := by
  generalize hall : segments ++ rest = all at hleads
  induction hleads generalizing segments with
  | here => exact absurd (List.append_eq_nil_iff.mp hall).2 hrest
  | @idle cost place all' found segment n hidle hmore ih =>
    rcases segments with _ | ⟨segment', segments⟩
    · obtain rfl : rest = segment :: all' := hall
      exact ⟨0, cost, place, Nat.zero_add _, .here place, .idle hidle hmore⟩
    obtain ⟨rfl, rfl⟩ := List.cons_eq_cons.mp hall
    obtain ⟨first, more, mid, hcost, hfirst, hmore⟩ := ih rfl
    exact ⟨first, more, mid, hcost, .idle hidle hfirst, hmore⟩
  | @up cost place all' found n hmore ih =>
    rcases segments with _ | ⟨segment', segments⟩
    · obtain rfl : rest = ".." :: all' := hall
      exact ⟨0, cost, place, Nat.zero_add _, .here place, .up hmore⟩
    obtain ⟨rfl, rfl⟩ := List.cons_eq_cons.mp hall
    obtain ⟨first, more, mid, hcost, hfirst, hmore⟩ := ih rfl
    exact ⟨first, more, mid, hcost, .up hfirst, hmore⟩
  | @dir cost place all' found segment n hstep hnode hmore ih =>
    rcases segments with _ | ⟨segment', segments⟩
    · obtain rfl : rest = segment :: all' := hall
      exact ⟨0, cost, place, Nat.zero_add _, .here place, .dir hstep hnode hmore⟩
    obtain ⟨rfl, rfl⟩ := List.cons_eq_cons.mp hall
    obtain ⟨first, more, mid, hcost, hfirst, hmore⟩ := ih rfl
    exact ⟨first, more, mid, hcost, .dir hstep hnode hfirst, hmore⟩
  | @file place segment contents mode hstep hnode =>
    rcases segments with _ | ⟨segment', segments⟩
    · obtain rfl : rest = [segment] := hall
      exact ⟨0, 0, place, rfl, .here place, .file hstep hnode⟩
    obtain ⟨rfl, hnil⟩ := List.cons_eq_cons.mp hall
    exact absurd (List.append_eq_nil_iff.mp hnil).2 hrest
  | @link cost place all' found segment target n hstep hnode hmore ih =>
    rcases segments with _ | ⟨segment', segments⟩
    · obtain rfl : rest = segment :: all' := hall
      exact ⟨0, cost + 1, place, Nat.zero_add _, .here place, .link hstep hnode hmore⟩
    obtain ⟨rfl, rfl⟩ := List.cons_eq_cons.mp hall
    obtain ⟨first, more, mid, rfl, hfirst, hmore⟩ := ih (List.append_assoc ..)
    exact ⟨first + 1, more, mid, Nat.add_right_comm .., .link hstep hnode hfirst, hmore⟩

/-- A link leads where its target leads from the directory that it stands in. -/
theorem Leads.of_link (hleads : Leads h cost place [segment] found n) (hstep : IsStep segment)
    (hnode : h.node? (segment :: place) = some (.link target)) :
    ∃ cost', Leads h cost' (linkStart place target) (Text.split (· = '/') target) found n := by
  cases hleads with
  | idle hidle => exact absurd hidle hstep.not_idle
  | up => exact absurd rfl hstep.1.2.2
  | dir _ hnode' => cases hnode.symm.trans hnode'
  | file _ hnode' => cases hnode.symm.trans hnode'
  | link _ hnode' hrest =>
    cases hnode.symm.trans hnode'
    rw [List.append_nil] at hrest
    exact ⟨_, hrest⟩

end ResourceModels.Host
