import LucidiOS.Vmm.Mapping

/-! When the page bitmap has pages enough for a descent. -/
namespace LucidiOS.Vmm
open ByteMemory Paging Pmm

/-- `pmm_alloc2` can find `n` different pages. -/
structure Supplied (s : Kernel) (n : ℕ) : Prop where
  zero : s.locked 0 = true
  length_pos : 0 < s.bitmapLength.toNat
  length_le : s.bitmapLength.toNat ≤ 2 ^ 46
  pages : ∃ ps : Finset ℕ, n ≤ ps.card ∧ ∀ p ∈ ps, p < scanned s.bitmapLength ∧ s.locked p = false

section Supply
variable {s s' : Kernel} {n : ℕ}

theorem Supplied.mono {k : ℕ} (h : Supplied s n) (hk : k ≤ n) : Supplied s k := by
  obtain ⟨ps, hcard, hps⟩ := h.pages
  exact ⟨h.zero, h.length_pos, h.length_le, ps, hk.trans hcard, hps⟩

theorem Supplied.alloc_ne_zero (h : Supplied s (n + 1)) :
    (pmmAlloc2 s.pmm s.bitmapLength s.mem).1 ≠ 0 := by
  obtain ⟨ps, hcard, hps⟩ := h.pages
  obtain ⟨p, hp⟩ := Finset.card_pos.mp (by omega : 0 < ps.card)
  exact (pmmAlloc2_ne_zero_iff h.zero h.length_le).mpr ⟨p, hps p hp⟩

/-- Taking pages leaves the others. -/
theorem Supplied.taken {new : List ℕ} (h : Supplied s (n + new.length))
    (hlen : s'.bitmapLength = s.bitmapLength)
    (hlocked : ∀ q < 64 * s.bitmapLength.toNat,
      s'.locked q = (s.locked q || decide (q ∈ new))) : Supplied s' n := by
  obtain ⟨ps, hcard, hps⟩ := h.pages
  have hsc := scanned_le s.bitmapLength
  have hpos := h.length_pos
  refine ⟨?_, hlen ▸ hpos, hlen ▸ h.length_le, ps \ new.toFinset, ?_, fun p hp => ?_⟩
  · rw [hlocked 0 (by omega), h.zero, Bool.true_or]
  · have := Finset.le_card_sdiff new.toFinset ps
    have := new.toFinset_card_le
    omega
  · rw [Finset.mem_sdiff, List.mem_toFinset] at hp
    obtain ⟨hscan, hfree⟩ := hps p hp.1
    refine ⟨hlen ▸ hscan, ?_⟩
    rw [hlocked p (by omega), hfree, Bool.false_or, decide_eq_false_iff_not]
    exact hp.2

theorem nextTable_supplied (h : Supplied s (n + 1)) (tableVirt idx : Word) :
    ∀ r ∈ (nextTable tableVirt idx s).results, r ≠ 0 := by
  intro r hr
  unfold nextTable at hr
  simp only at hr
  split_ifs at hr
  · rw [List.mem_singleton.mp hr]
    exact h.alloc_ne_zero
  · simp at hr

/-- A descent with a page for each level gets all the pages it asks for. -/
theorem descend_supplied (idxs : List Word) (p₀ path rest : List (Fin 512)) {e : Entered} {T : ℕ}
    (ht : PageTree e.kernel) (hp : PmmApart e.kernel)
    (hT : tableAt e.kernel.mem e.kernel.root p₀ = some T)
    (hptr : phys e.kernel.gHhdmOffset e.table = 4096 * T) (hlt : T < 2 ^ 40)
    (hpath : idxs.map BitVec.toNat = path.map Fin.val) (hlen : p₀.length + path.length ≤ 3)
    (hsmall : NoLarge e.kernel.mem e.kernel.root (p₀ ++ path ++ rest))
    (hs : Supplied e.kernel idxs.length) (he : ∀ r ∈ e.results, r ≠ 0) :
    ∀ r ∈ (descend e idxs).results, r ≠ 0 := by
  induction idxs generalizing e T p₀ path with
  | nil => exact he
  | cons idx idxs ih =>
    obtain ⟨i, path, rfl, hidx, htail⟩ := indices_cons hpath
    simp only [List.length_cons] at hlen hs
    have hnext := nextTable_supplied hs e.table idx
    obtain ⟨new, hnew, -, hext, N, hN, hNptr, hNtab⟩ := nextTable_extends ht hp hT (by omega)
      hptr hlt hidx (hsmall p₀ i T ⟨path ++ rest, by simp⟩ (by omega) hT) hnext
    rw [← hext.root_eq] at hNtab
    rw [← hext.hhdm_eq] at hNptr
    have hsmall' := hext.noLarge _ hsmall
    rw [show p₀ ++ i :: path = p₀ ++ [i] ++ path by simp] at hsmall'
    refine ih (p₀ ++ [i]) path (e := e.next idx) hext.tree hext.pmm hNtab hNptr hN htail
      (by simp; omega) hsmall' ((hs.mono (by omega)).taken hext.length_eq hext.locked) fun r hr => ?_
    rcases List.mem_append.mp hr with hr | hr
    · exact he r hr
    · exact hnext r hr

theorem vmmAlloc_supplied {virt : Word} (physAddr : Word) (flags : BitVec 8) (ht : PageTree s)
    (hp : PmmApart s) (hsmall : NoLarge s.mem s.root (indices virt)) (hs : Supplied s 3) :
    ∀ r ∈ (vmmAlloc virt physAddr flags s).2, r ≠ 0 := by
  rw [(vmmAlloc_eq virt physAddr flags s).1]
  exact descend_supplied (descentIndices virt) [] [index virt 3, index virt 2, index virt 1]
    [index virt 0] (e := topTable s) ht hp (tableAt_nil _ _) (phys_mask _ _) (frame_lt s.cr3)
    (descentIndices_toNat virt) (by simp) hsmall hs (by simp [topTable])

end Supply
end LucidiOS.Vmm
