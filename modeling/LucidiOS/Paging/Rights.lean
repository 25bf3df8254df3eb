import LucidiOS.Paging.Hierarchy

/-! The access rights that a paging hierarchy gives: those granted by every entry of a walk. -/
namespace Paging
open ByteMemory

@[ext] structure Rights where
  writable : Bool
  user : Bool
  deriving DecidableEq

def Rights.all : Rights := ⟨true, true⟩

/-- What both allow. -/
def Rights.meet (a b : Rights) : Rights := ⟨a.writable && b.writable, a.user && b.user⟩

/-- The R/W and the U/S bit. -/
def entryRights (e : BitVec 64) : Rights := ⟨e.getLsbD 1, e.getLsbD 2⟩

/-- The rights of a walk, when it ends at a page. -/
def rightsFrom (m : Memory) (t : ℕ) : List (Fin 512) → Option Rights
  | [] => none
  | [i] => if present (entry m t i) then some (entryRights (entry m t i)) else none
  | i :: j :: rest =>
      if !present (entry m t i) then none
      else if large (entry m t i) then
        if rest.length < 2 then some (entryRights (entry m t i)) else none
      else (rightsFrom m (frame (entry m t i)) (j :: rest)).map (entryRights (entry m t i)).meet

/-- The rights that the processor computes for a virtual address. -/
def accessRights (m : Memory) (root : ℕ) (v : BitVec 64) : Option Rights :=
  rightsFrom m root (indices v)

/-- The entries on a path. -/
def pathEntries (m : Memory) (t : ℕ) : List (Fin 512) → List (BitVec 64)
  | [] => []
  | i :: p => entry m t i :: pathEntries m (frame (entry m t i)) p

/-- The entries on a path in front of the first one that is not present. -/
def presentEntries (m : Memory) (t : ℕ) : List (Fin 512) → List (BitVec 64)
  | [] => []
  | i :: p =>
      if present (entry m t i) then entry m t i :: presentEntries m (frame (entry m t i)) p else []

/-- The rights that all of some entries grant. -/
def commonRights (es : List (BitVec 64)) : Rights :=
  ⟨es.all fun e => (entryRights e).writable, es.all fun e => (entryRights e).user⟩

section Meet
variable (a b c : Rights)

theorem Rights.meet_assoc : (a.meet b).meet c = a.meet (b.meet c) := by
  simp only [meet, Bool.and_assoc]

theorem Rights.all_meet : all.meet a = a := by simp only [meet, all, Bool.true_and]

theorem Rights.meet_all : a.meet all = a := by simp only [meet, all, Bool.and_true]

theorem Rights.meet_self : a.meet a = a := by simp only [meet, Bool.and_self]

@[simp] theorem commonRights_nil : commonRights [] = Rights.all := rfl

@[simp] theorem commonRights_cons (e : BitVec 64) (es : List (BitVec 64)) :
    commonRights (e :: es) = (entryRights e).meet (commonRights es) := rfl

theorem commonRights_append (es es' : List (BitVec 64)) :
    commonRights (es ++ es') = (commonRights es).meet (commonRights es') := by
  simp only [commonRights, Rights.meet, List.all_append]

end Meet

section Paths
variable {m m' : Memory} {root t u : ℕ} {p : List (Fin 512)} {i : Fin 512}

theorem pathEntries_snoc (h : tableAt m root p = some t) :
    pathEntries m root (p ++ [i]) = pathEntries m root p ++ [entry m t i] := by
  induction p generalizing root with
  | nil =>
    rw [← Option.some.inj h]
    rfl
  | cons j p ih =>
    rw [tableAt_cons, Option.bind_eq_some_iff] at h
    obtain ⟨t', hchild, ht'⟩ := h
    obtain ⟨-, -, rfl⟩ := child_eq_some.mp hchild
    rw [List.cons_append, pathEntries, ih ht']
    rfl

/-- The entries on a path to a table stay when they are not changed one by one. -/
theorem pathEntries_congr (ht : tableAt m root p = some t) (h : ∀ q u i, q ++ [i] <+: p →
    tableAt m root q = some u → entry m' u i = entry m u i) :
    pathEntries m' root p = pathEntries m root p := by
  induction p using List.reverseRecOn generalizing t with
  | nil => rfl
  | append_singleton p i ih =>
    have hpre (q : List (Fin 512)) (j : Fin 512) (hq : q ++ [j] <+: p) : q ++ [j] <+: p ++ [i] :=
      hq.trans (List.prefix_append p [i])
    rw [tableAt_snoc, Option.bind_eq_some_iff] at ht
    obtain ⟨u, hu, -⟩ := ht
    have hu' : tableAt m' root p = some u := by
      rw [tableAt_congr fun q v j hq => h q v j (hpre q j hq), hu]
    rw [pathEntries_snoc hu, pathEntries_snoc hu', ih hu fun q v j hq => h q v j (hpre q j hq),
      h p u i (List.prefix_refl _) hu]

/-- The rights of a walk through a table are met by the entries on the way to it. -/
theorem rightsFrom_append {rest : List (Fin 512)} (h : tableAt m t p = some u) (hr : rest ≠ []) :
    rightsFrom m t (p ++ rest) =
      (rightsFrom m u rest).map (commonRights (pathEntries m t p)).meet := by
  induction p generalizing t with
  | nil =>
    rw [List.nil_append, Option.some.inj h]
    cases hrights : rightsFrom m u rest with
    | none => rfl
    | some r => rw [Option.map_some, pathEntries, commonRights_nil, Rights.all_meet]
  | cons i p ih =>
    rw [tableAt_cons, Option.bind_eq_some_iff] at h
    obtain ⟨t', hchild, ht'⟩ := h
    obtain ⟨h1, h2, rfl⟩ := child_eq_some.mp hchild
    obtain ⟨j, rest', hjr⟩ := List.exists_cons_of_ne_nil (show p ++ rest ≠ [] by simp [hr])
    have hstep : rightsFrom m t (i :: j :: rest') =
        (rightsFrom m (frame (entry m t i)) (j :: rest')).map (entryRights (entry m t i)).meet := by
      simp [rightsFrom, h1, h2]
    rw [List.cons_append, hjr, hstep, ← hjr, ih ht', Option.map_map, pathEntries, commonRights_cons]
    congr 1
    funext r
    exact (Rights.meet_assoc _ _ r).symm

theorem presentEntries_absent (h : present (entry m t i) = false) :
    presentEntries m t (i :: p) = [] := by simp [presentEntries, h]

theorem presentEntries_present (h : present (entry m t i) = true) :
    presentEntries m t (i :: p) =
      entry m t i :: presentEntries m (frame (entry m t i)) p := by simp [presentEntries, h]

end Paths
end Paging
