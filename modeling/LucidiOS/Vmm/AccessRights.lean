import LucidiOS.Paging.Rights
import LucidiOS.Vmm.Correctness

/-! The access rights of a page that `vmm_alloc` has mapped. -/
namespace LucidiOS.Vmm
open ByteMemory Paging Pmm

/-- The rights that the entry of a new table grants. -/
def newTableRights : Rights := ⟨true, false⟩

/-- The rights that the R/W and the U/S bit of `flags` ask for. -/
def requested (flags : BitVec 8) : Rights := ⟨flags.getLsbD 1, flags.getLsbD 2⟩

/-- The indices of the three upper levels. -/
def upperIndices (virt : Word) : List (Fin 512) := [index virt 3, index virt 2, index virt 1]

/-- The rights that are left on a path after its missing tables are added. -/
def upperRights (m : Memory) (t : ℕ) (p : List (Fin 512)) : Rights :=
  let es := presentEntries m t p
  if es.length = p.length then commonRights es else (commonRights es).meet newTableRights

section Entries

theorem tableEntry_rights {N : ℕ} (hN : N < 2 ^ 40) :
    entryRights (tableEntry N) = newTableRights := by
  have haddr := page_address_toNat (show N < 2 ^ 52 by omega)
  have hmod : (BitVec.ofNat 64 N * 4096 : Word).toNat % 4096 = 0 := by omega
  have hbit (k : ℕ) (hk : k < 12) :
      (tableEntry N).getLsbD k = (ptePresent ||| pteWritable).getLsbD k := by
    rw [tableEntry, BitVec.or_assoc, getLsbD_or_low hmod hk]
  rw [entryRights, hbit 1 (by decide), hbit 2 (by decide)]
  rfl

theorem pageEntry_rights (physAddr : Word) (flags : BitVec 8) :
    entryRights (pageEntry physAddr flags) = requested flags := by
  have hmask : (pteMask.getLsbD 1, pteMask.getLsbD 2) = (false, false) := by decide
  simp only [Prod.mk.injEq] at hmask
  have hone : ((1 : Word).getLsbD 1, (1 : Word).getLsbD 2) = (false, false) := by decide
  simp only [Prod.mk.injEq] at hone
  simp only [entryRights, requested, pageEntry, BitVec.getLsbD_or, BitVec.getLsbD_and, hmask, hone,
    BitVec.getLsbD_setWidth, Bool.and_false, Bool.false_or, Bool.or_false]
  simp

end Entries

section Upper
variable {m : Memory} {t : ℕ} {i : Fin 512} {p : List (Fin 512)}

theorem upperRights_nil : upperRights m t [] = Rights.all := rfl

theorem upperRights_present (h : present (entry m t i) = true) : upperRights m t (i :: p) =
    (entryRights (entry m t i)).meet (upperRights m (frame (entry m t i)) p) := by
  simp only [upperRights, presentEntries_present h, List.length_cons, Nat.add_right_cancel_iff,
    commonRights_cons]
  split_ifs
  · rfl
  · rw [Rights.meet_assoc]

theorem upperRights_absent (h : present (entry m t i) = false) :
    upperRights m t (i :: p) = newTableRights := by
  simp only [upperRights, presentEntries_absent h, List.length_nil, List.length_cons,
    commonRights_nil, Rights.all_meet]
  exact if_neg (by omega)

/-- Below an empty table all tables are new. -/
theorem upperRights_empty (h : ∀ i, present (entry m t i) = false) :
    newTableRights.meet (upperRights m t p) = newTableRights := by
  cases p with
  | nil => rw [upperRights_nil, Rights.meet_all]
  | cons i p => rw [upperRights_absent (h i), Rights.meet_self]

end Upper

section Descend
variable {s : Kernel} {T N : ℕ} {p₀ : List (Fin 512)}

/-- The tables on the way to a table are other tables. -/
theorem above_ne (ht : PageTree s) (hT : tableAt s.mem s.root p₀ = some T) (h₀ : p₀.length ≤ 3)
    {q : List (Fin 512)} {u : ℕ} {i : Fin 512} (hq : q ++ [i] <+: p₀)
    (hu : tableAt s.mem s.root q = some u) : q.length < p₀.length ∧ u ≠ T := by
  have hlen := hq.length_le
  rw [List.length_append, List.length_singleton] at hlen
  refine ⟨hlen, ?_⟩
  rintro rfl
  rw [ht.distinct q p₀ u (by omega) h₀ hu hT] at hlen
  omega

/-- A new table adds its entry to the path. -/
theorem linkTable_pathRights (ht : PageTree s) (hp : PmmApart s)
    (hT : tableAt s.mem s.root p₀ = some T) (h₀ : p₀.length ≤ 2)
    (hN : N < 64 * s.bitmapLength.toNat) (hfree : s.locked N = false) (i₀ : Fin 512) :
    commonRights (pathEntries (linkTable s N T i₀).mem s.root (p₀ ++ [i₀])) =
      (commonRights (pathEntries s.mem s.root p₀)).meet newTableRights := by
  have hkeep (q : List (Fin 512)) (u : ℕ) (i : Fin 512) (hq : q ++ [i] <+: p₀)
      (hu : tableAt s.mem s.root q = some u) :
      entry (linkTable s N T i₀).mem u i = entry s.mem u i := by
    obtain ⟨hlen, hne⟩ := above_ne ht hT (by omega) hq hu
    exact (linkTable_agree ht hp hN hfree).entry_eq q u i (by omega) hu (.inl hne)
  have hT' : tableAt (linkTable s N T i₀).mem s.root p₀ = some T := by
    rw [tableAt_congr hkeep, hT]
  rw [pathEntries_snoc hT', pathEntries_congr hT hkeep, commonRights_append, commonRights_cons,
    commonRights_nil, Rights.meet_all, linkTable_slot, tableEntry_rights (hp.free N hN hfree).1]

/-- After the descent the path grants what its present entries and the new tables grant, by
induction on the indices that remain. -/
theorem descend_rights (idxs : List Word) (p₀ path rest : List (Fin 512)) {e : Entered} {T : ℕ}
    (ht : PageTree e.kernel) (hp : PmmApart e.kernel)
    (hT : tableAt e.kernel.mem e.kernel.root p₀ = some T)
    (hptr : phys e.kernel.gHhdmOffset e.table = 4096 * T) (hlt : T < 2 ^ 40)
    (hpath : idxs.map BitVec.toNat = path.map Fin.val) (hlen : p₀.length + path.length ≤ 3)
    (hsmall : NoLarge e.kernel.mem e.kernel.root (p₀ ++ path ++ rest))
    (hr : ∀ r ∈ (descend e idxs).results, r ≠ 0) :
    commonRights (pathEntries (descend e idxs).kernel.mem e.kernel.root (p₀ ++ path)) =
      (commonRights (pathEntries e.kernel.mem e.kernel.root p₀)).meet
        (upperRights e.kernel.mem T path) := by
  induction idxs generalizing e T p₀ path with
  | nil =>
    obtain rfl : path = [] := by simpa using hpath.symm
    rw [descend_nil, List.append_nil, upperRights_nil, Rights.meet_all]
  | cons idx idxs ih =>
    obtain ⟨i, path, rfl, hidx, htail⟩ := indices_cons hpath
    simp only [List.length_cons] at hlen
    have hshape : p₀ ++ i :: path = p₀ ++ [i] ++ path := by simp
    rw [hshape] at hsmall ⊢
    rw [descend_cons] at hr ⊢
    cases hpresent : present (entry e.kernel.mem T i) with
    | true =>
      have hlarge := hsmall p₀ i T ⟨path ++ rest, by simp⟩ (by omega) hT hpresent
      have hchild : tableAt e.kernel.mem e.kernel.root (p₀ ++ [i]) =
          some (frame (entry e.kernel.mem T i)) := by
        rw [tableAt_snoc, hT, Option.bind_some, child_eq_some]
        exact ⟨hpresent, hlarge, rfl⟩
      rw [Entered.next_present hptr hlt hidx hpresent] at hr ⊢
      have hrest := ih (p₀ ++ [i]) path
        (e := ⟨(entry e.kernel.mem T i &&& pteMask) + e.kernel.gHhdmOffset, e.kernel, e.results⟩)
        ht hp hchild (phys_mask _ _) (frame_lt _) htail (by simp; omega) hsmall hr
      rw [hrest, pathEntries_snoc hT, commonRights_append, commonRights_cons, commonRights_nil,
        Rights.meet_all, Rights.meet_assoc, upperRights_present hpresent]
    | false =>
      obtain ⟨N, hN, hfree, -, hNlt, hNptr, heq⟩ := Entered.next_absent hp hptr hlt hidx
        hpresent fun r h => hr r (descend_results_mono _ _ h)
      have hN' : N < 64 * e.kernel.bitmapLength.toNat := by
        have := scanned_le e.kernel.bitmapLength
        omega
      obtain ⟨hext, htab⟩ := linkTable_extends ht hp hT (by omega) hpresent hN hfree
      obtain ⟨hempty, -, -⟩ := linkTable_tableAt ht hp hT (by omega) hpresent hN' hfree
      have hsmall' := hext.noLarge _ hsmall
      rw [heq] at hr ⊢
      have hrest := ih (p₀ ++ [i]) path
        (e := ⟨(tableEntry N &&& pteMask) + e.kernel.gHhdmOffset, linkTable e.kernel N T i,
          e.results ++ [pageAddress N]⟩)
        hext.tree hext.pmm htab hNptr hNlt htail (by simp; omega) hsmall' hr
      refine hrest.trans ?_
      have hnew := linkTable_pathRights ht hp hT (by omega) hN' hfree i
      rw [upperRights_absent hpresent]
      change (commonRights (pathEntries (linkTable e.kernel N T i).mem e.kernel.root
        (p₀ ++ [i]))).meet _ = _
      rw [hnew, Rights.meet_assoc, upperRights_empty hempty]

end Descend

section Alloc
variable {s : Kernel} {virt physAddr : Word} {flags : BitVec 8}

/-- The rights of the page are those requested, less what the tables on the way to it withhold. -/
theorem vmmAlloc_accessRights (ht : PageTree s) (hp : PmmApart s)
    (hsmall : NoLarge s.mem s.root (indices virt))
    (hr : ∀ r ∈ (vmmAlloc virt physAddr flags s).2, r ≠ 0) :
    accessRights (vmmAlloc virt physAddr flags s).1.mem (vmmAlloc virt physAddr flags s).1.root virt =
      some ((upperRights s.mem s.root (upperIndices virt)).meet (requested flags)) := by
  obtain ⟨k, T, new, rfl, -, -, hext, htab, heq⟩ := vmmAlloc_descends ht hp hsmall hr
  rw [(vmmAlloc_eq virt physAddr flags s).1] at hr
  have hpath := descend_rights (descentIndices virt) [] (upperIndices virt) [index virt 0]
    (e := topTable s) ht hp (tableAt_nil _ _) (phys_mask _ _) (frame_lt s.cr3)
    (descentIndices_toNat virt) (by simp [upperIndices]) hsmall hr
  rw [heq]
  generalize (descend (topTable s) (descentIndices virt)).kernel = k at hext htab hpath ⊢
  change tableAt k.mem k.root (upperIndices virt) = some T at htab
  have hlen : (upperIndices virt).length = 3 := rfl
  obtain ⟨-, -, htables, -, -⟩ := storeEntry_spec hext.tree hext.pmm htab hlen (index virt 0)
    (pageEntry physAddr flags)
  have htab' : tableAt (storeEntry k T (index virt 0) (pageEntry physAddr flags)).mem k.root
      (upperIndices virt) = some T := (htables _ hlen.le).trans htab
  have hkeep (q : List (Fin 512)) (u : ℕ) (i : Fin 512) (hq : q ++ [i] <+: upperIndices virt)
      (hu : tableAt k.mem k.root q = some u) :
      entry (storeEntry k T (index virt 0) (pageEntry physAddr flags)).mem u i =
        entry k.mem u i :=
    entry_store_apart _ _ (.inl (above_ne hext.tree htab hlen.le hq hu).2)
  have hcommon : commonRights (pathEntries k.mem k.root (upperIndices virt)) =
      upperRights s.mem s.root (upperIndices virt) := by
    rw [hext.root_eq]
    exact hpath.trans (Rights.all_meet _)
  change rightsFrom (storeEntry k T (index virt 0) _).mem k.root
    (upperIndices virt ++ [index virt 0]) = _
  rw [rightsFrom_append htab' (by simp), rightsFrom, storeEntry, entry_store,
    if_pos (pageEntry_present _ _), Option.map_some, pageEntry_rights]
  change some ((commonRights (pathEntries (storeEntry k T (index virt 0) _).mem k.root
    (upperIndices virt))).meet _) = _
  rw [pathEntries_congr htab hkeep, hcommon]

end Alloc

/-- A page mapped by `vmm_alloc` is writable or accessible in user mode when `flags` ask for it and
every table on the way that was there before grants it; a table that was missing grants writing but
no access in user mode. -/
theorem vmmAlloc_rights_iff (s : Kernel) (virt physAddr : Word) (flags : BitVec 8) (ht : PageTree s)
    (hp : PmmApart s) (hsmall : ∀ path, NoLarge s.mem s.root path)
    (hr : ∀ r ∈ (vmmAlloc virt physAddr flags s).2, r ≠ 0) :
    let s' := (vmmAlloc virt physAddr flags s).1
    let es := presentEntries s.mem s.root (upperIndices virt)
    ∃ r, accessRights s'.mem s'.root virt = some r ∧
      (r.writable = true ↔
        flags.getLsbD 1 = true ∧ ∀ e ∈ es, (entryRights e).writable = true) ∧
      (r.user = true ↔
        flags.getLsbD 2 = true ∧ es.length = 3 ∧ ∀ e ∈ es, (entryRights e).user = true) := by
  refine ⟨_, vmmAlloc_accessRights ht hp (hsmall _) hr, ?_, ?_⟩
  · have hupper : (upperRights s.mem s.root (upperIndices virt)).writable =
        (commonRights (presentEntries s.mem s.root (upperIndices virt))).writable := by
      rw [upperRights]
      split_ifs
      · rfl
      · exact Bool.and_true _
    simp only [Rights.meet, hupper, Bool.and_eq_true, commonRights, List.all_eq_true, requested,
      and_comm]
  · have hupper : (upperRights s.mem s.root (upperIndices virt)).user = true ↔
        (presentEntries s.mem s.root (upperIndices virt)).length = 3 ∧
          (commonRights (presentEntries s.mem s.root (upperIndices virt))).user = true := by
      have hlen : (upperIndices virt).length = 3 := rfl
      rw [upperRights, hlen]
      split_ifs with hfull
      · simp only [hfull, true_and]
      · simp only [hfull, false_and, Rights.meet, newTableRights, Bool.and_false,
          Bool.false_eq_true]
    simp only [Rights.meet, Bool.and_eq_true, hupper, commonRights, List.all_eq_true, requested]
    exact and_comm

theorem vmmAlloc_rights_iff_first :
    ∃ r, accessRights (vmmAlloc 0x40000000 0x5000 3 emptyTables).1.mem
        (vmmAlloc 0x40000000 0x5000 3 emptyTables).1.root 0x40000000 = some r ∧
      r.writable = true := by
  have hempty : presentEntries emptyTables.mem emptyTables.root (upperIndices 0x40000000) = [] :=
    presentEntries_absent (emptyTables_entry _)
  obtain ⟨r, hr, hwritable, -⟩ := vmmAlloc_rights_iff emptyTables 0x40000000 0x5000 3
    emptyTables_tree emptyTables_pmm emptyTables_noLarge
    (vmmAlloc_supplied _ _ emptyTables_tree emptyTables_pmm (emptyTables_noLarge _)
      emptyTables_supplied)
  rw [hempty] at hwritable
  exact ⟨r, hr, hwritable.mpr ⟨by decide, nofun⟩⟩

/-- A page for user mode behind new tables is not accessible in user mode. -/
theorem user_page_not_user :
    requested 7 = ⟨true, true⟩ ∧
      accessRights (vmmAlloc 0x40000000 0x5000 7 emptyTables).1.mem
        (vmmAlloc 0x40000000 0x5000 7 emptyTables).1.root 0x40000000 = some ⟨true, false⟩ := by
  refine ⟨by decide, ?_⟩
  rw [vmmAlloc_accessRights emptyTables_tree emptyTables_pmm (emptyTables_noLarge _)
    (vmmAlloc_supplied _ _ emptyTables_tree emptyTables_pmm (emptyTables_noLarge _)
      emptyTables_supplied)]
  have habsent : upperRights emptyTables.mem emptyTables.root (upperIndices 0x40000000) =
      newTableRights := upperRights_absent (emptyTables_entry _)
  rw [habsent]
  decide

end LucidiOS.Vmm
