import LucidiOS.Vmm.VmmAlloc

/-! Where `vmm_alloc` stores in any hierarchy. It descends by present bits alone; once it has
linked a page of its own it stays in pages of its own. -/
namespace LucidiOS
open ByteMemory Paging Pmm

/-- The pages that `pmm_alloc2` gives out, in its order. -/
def Kernel.freePages (s : Kernel) : List ℕ :=
  (List.range (scanned s.bitmapLength)).filter fun p => !s.locked p

namespace Vmm

/-- A slot of a table, with the number of tables missing below it. -/
structure Slot where
  table : ℕ
  index : Fin 512
  missing : ℕ

/-- The slot that receives the first store: the first absent one, or the last. -/
def firstStore (m : Memory) (t : ℕ) : List (Fin 512) → Slot
  | [] => ⟨t, 0, 0⟩
  | [i] => ⟨t, i, 0⟩
  | i :: j :: rest =>
      if present (entry m t i) then firstStore m (frame (entry m t i)) (j :: rest)
      else ⟨t, i, rest.length + 1⟩

theorem firstStore_cons (m : Memory) (t : ℕ) (i : Fin 512) {rest : List (Fin 512)}
    (h : rest ≠ []) : firstStore m t (i :: rest) =
      if present (entry m t i) then firstStore m (frame (entry m t i)) rest
      else ⟨t, i, rest.length⟩ := by
  obtain ⟨j, rest, rfl⟩ := List.exists_cons_of_ne_nil h
  rfl

/-- Without large pages on the path the slot lies in a table of the hierarchy. -/
theorem firstStore_table {m : Memory} {root t : ℕ} {p rest : List (Fin 512)}
    (hlarge : NoLarge m root (p ++ rest)) (hlen : p.length + rest.length ≤ 4) (hrest : rest ≠ [])
    (ht : tableAt m root p = some t) :
    ∃ q : List (Fin 512), q.length ≤ 3 ∧ tableAt m root q = some (firstStore m t rest).table := by
  induction rest generalizing p t with
  | nil => contradiction
  | cons i rest ih =>
    simp only [List.length_cons] at hlen
    by_cases hnil : rest = []
    · subst hnil
      exact ⟨p, by omega, ht⟩
    · rw [firstStore_cons m t i hnil]
      have hpos := List.length_pos_iff.mpr hnil
      split_ifs with hpresent
      · have hsmall := hlarge p i t ⟨rest, by simp⟩ (by omega) ht hpresent
        refine ih (p := p ++ [i]) (by simpa using hlarge) (by simp; omega) hnil ?_
        rw [tableAt_snoc, ht, Option.bind_some, child_eq_some]
        exact ⟨hpresent, hsmall, rfl⟩
      · exact ⟨p, by omega, ht⟩

theorem firstStore_missing_le (m : Memory) (t : ℕ) (path : List (Fin 512)) :
    (firstStore m t path).missing ≤ path.length - 1 := by
  induction path generalizing t with
  | nil => exact Nat.le_refl 0
  | cons i rest ih =>
    by_cases hnil : rest = []
    · subst hnil
      exact Nat.le_refl 0
    · rw [firstStore_cons m t i hnil, List.length_cons]
      split_ifs
      · have := ih (frame (entry m t i))
        omega
      · exact Nat.le_refl _

/-- Next to a mapped small page no table is missing. -/
theorem firstStore_missing_of_walk {m : Memory} {t : ℕ} {path : List (Fin 512)} {i j : Fin 512}
    {w : Word} (h : walkFrom m t (path ++ [i]) = some ⟨0, w⟩) :
    (firstStore m t (path ++ [j])).missing = 0 := by
  induction path generalizing t with
  | nil => rfl
  | cons k path ih =>
    obtain ⟨l, rest, hrest⟩ := List.exists_cons_of_ne_nil (show path ++ [i] ≠ [] by simp)
    rw [List.cons_append, firstStore_cons _ _ _ (by simp)]
    rw [List.cons_append, hrest, walkFrom, ← hrest] at h
    cases hpresent : present (entry m t k) with
    | false => simp [hpresent] at h
    | true =>
      rw [if_pos rfl]
      apply ih
      simp only [hpresent, Bool.not_true, Bool.false_eq_true, ↓reduceIte] at h
      split_ifs at h with hlarge hlevel
      · simp at h
      · exact h

section Free
variable {s s' : Kernel} {N : ℕ}

theorem mem_freePages {p : ℕ} :
    p ∈ s.freePages ↔ p < scanned s.bitmapLength ∧ s.locked p = false := by
  simp [Kernel.freePages]

/-- Taking the first free page leaves the rest of the list. -/
theorem freePages_cons (hN : N < scanned s.bitmapLength) (hfree : s.locked N = false)
    (hfirst : ∀ q < N, s.locked q = true) (hlen : s'.bitmapLength = s.bitmapLength)
    (hlocked : ∀ q < 64 * s.bitmapLength.toNat, s'.locked q = (s.locked q || decide (q = N))) :
    s.freePages = N :: s'.freePages := by
  have hsc := scanned_le s.bitmapLength
  obtain ⟨m, hm⟩ : ∃ m, scanned s.bitmapLength = N + (m + 1) :=
    ⟨scanned s.bitmapLength - N - 1, by omega⟩
  have hlow : (List.range N).filter (fun p => !s.locked p) = [] := by
    simpa [List.filter_eq_nil_iff] using hfirst
  have hlow' : (List.range N).filter (fun p => !s'.locked p) = [] := by
    simp only [List.filter_eq_nil_iff, List.mem_range, Bool.not_eq_true', Bool.not_eq_false]
    intro q hq
    rw [hlocked q (by omega), hfirst q hq, Bool.true_or]
  have hN' : s'.locked N = true := by
    rw [hlocked N (by omega)]
    simp
  have hrest : ((List.range m).map fun k => N + (k + 1)).filter (fun p => !s'.locked p) =
      ((List.range m).map fun k => N + (k + 1)).filter (fun p => !s.locked p) := by
    refine List.filter_congr fun q hq => ?_
    obtain ⟨k, hk, rfl⟩ := List.mem_map.mp hq
    rw [List.mem_range] at hk
    rw [hlocked _ (by omega), decide_eq_false (by omega), Bool.or_false]
  have hsplit : List.range (N + (m + 1)) =
      List.range N ++ N :: (List.range m).map fun k => N + (k + 1) := by
    rw [List.range_add, List.range_succ_eq_map, List.map_cons, List.map_map]
    rfl
  simp only [Kernel.freePages, hlen, hm, hsplit, List.filter_append, hlow, hlow', List.nil_append,
    List.filter_cons, hfree, hN', Bool.not_false, Bool.not_true, Bool.false_eq_true, ↓reduceIte,
    hrest]

end Free

/-- The tables in `R` are taken from the page bitmap and lead only to each other. -/
structure Closed (s : Kernel) (R : List ℕ) : Prop where
  pmm : PmmApart s
  taken : ∀ t ∈ R, t < 64 * s.bitmapLength.toNat ∧ s.locked t = true
  apart : ∀ t ∈ R, ¬s.HoldsBitmap t
  leads : ∀ t ∈ R, ∀ i, present (entry s.mem t i) = true → frame (entry s.mem t i) ∈ R

/-- From `s` to `s'` the pages `new` are taken, and nothing changes outside these, `R` and the
page bitmap. -/
structure Grows (s s' : Kernel) (R new : List ℕ) : Prop where
  setup : s' = { s with mem := s'.mem }
  closed : Closed s' (R ++ new)
  pages : s.freePages = new ++ s'.freePages
  outside : ∀ x, x / 4096 ∉ R ++ new → ¬s.HoldsBitmap (x / 4096) → s'.mem x = s.mem x

section Grow
variable {s s' s'' : Kernel} {R new new' : List ℕ} {N T : ℕ} {i : Fin 512}

theorem Grows.refl (h : Closed s R) : Grows s s R [] :=
  ⟨rfl, by simpa using h, rfl, fun _ _ _ => rfl⟩

theorem Grows.trans (h : Grows s s' R new) (h' : Grows s' s'' (R ++ new) new') :
    Grows s s'' R (new ++ new') where
  setup := by
    have := h'.setup
    rw [h.setup] at this
    exact this
  closed := by
    rw [← List.append_assoc]
    exact h'.closed
  pages := by rw [h.pages, h'.pages, List.append_assoc]
  outside x hx hb := by
    rw [← List.append_assoc, List.mem_append, not_or] at hx
    have hb' : ¬s'.HoldsBitmap (x / 4096) := by
      rw [h.setup]
      exact hb
    rw [h'.outside x (by rw [List.mem_append, not_or]; exact hx) hb', h.outside x hx.1 hb]

/-- Linking the first free page into one of the tables. -/
theorem Closed.link (h : Closed s R) (hT : T ∈ R) (hN : N < scanned s.bitmapLength)
    (hfree : s.locked N = false) (hfirst : ∀ q < N, s.locked q = true) :
    Grows s (linkTable s N T i) R [N] ∧
      ∀ j, present (entry (linkTable s N T i).mem N j) = false := by
  have hN' : N < 64 * s.bitmapLength.toNat := by
    have := scanned_le s.bitmapLength
    omega
  obtain ⟨hNlt, hNapart⟩ := h.pmm.free N hN' hfree
  have hnotMem : N ∉ R := fun hc => by
    rw [(h.taken N hc).2] at hfree
    contradiction
  have hNT : N ≠ T := fun hc => hnotMem (hc ▸ hT)
  have hTapart := h.apart T hT
  have hlocked (q : ℕ) (hq : q < 64 * s.bitmapLength.toNat) :=
    linkTable_locked (i := i) h.pmm.fits hN' hNapart hTapart hq
  have hempty (j : Fin 512) : present (entry (linkTable s N T i).mem N j) = false := by
    rw [linkTable_new s (Or.inl hNT)]
    rfl
  refine ⟨⟨rfl, ⟨linkTable_apart h.pmm hN' hfree hTapart, fun t ht => ?_, fun t ht => ?_,
    fun t ht j hp => ?_⟩, ?_, fun x hx hb => ?_⟩, hempty⟩
  · rcases List.mem_append.mp ht with ht | ht
    · obtain ⟨hlt, hl⟩ := h.taken t ht
      exact ⟨hlt, by rw [hlocked t hlt, hl, Bool.true_or]⟩
    · rw [List.mem_singleton.mp ht]
      exact ⟨hN', by rw [hlocked N hN']; simp⟩
  · rcases List.mem_append.mp ht with ht | ht
    · exact h.apart t ht
    · rw [List.mem_singleton.mp ht]
      exact hNapart
  · rw [List.mem_append]
    by_cases htN : t = N
    · rw [htN, hempty j] at hp
      contradiction
    · have htR : t ∈ R := by simpa [htN] using ht
      by_cases hslot : t = T ∧ j = i
      · rw [hslot.1, hslot.2, linkTable_slot, (tableEntry_spec hNlt).1]
        exact Or.inr List.mem_cons_self
      · rw [linkTable_entry h.pmm.fits hN' htN (by tauto) (h.apart t htR)] at hp ⊢
        exact Or.inl (h.leads t htR j hp)
  · exact freePages_cons hN hfree hfirst rfl hlocked
  · rw [List.mem_append, List.mem_singleton, not_or] at hx
    exact linkTable_outside h.pmm.fits hN' T i hx.2 (fun hc => hx.1 (hc ▸ hT)) hb

end Grow

/-- Below a page of its own the descent stays in pages of its own. From an empty table it takes one
page a level. -/
theorem descend_closed (idxs : List Word) (path : List (Fin 512)) {e : Entered} {T : ℕ}
    {R : List ℕ} (h : Closed e.kernel R) (hT : T ∈ R)
    (hptr : phys e.kernel.gHhdmOffset e.table = 4096 * T) (hlt : T < 2 ^ 40)
    (hpath : idxs.map BitVec.toNat = path.map Fin.val)
    (hr : ∀ r ∈ (descend e idxs).results, r ≠ 0) :
    ∃ new : List ℕ, (descend e idxs).results = e.results ++ new.map pageAddress ∧
      new.length ≤ idxs.length ∧
      ((∀ i, present (entry e.kernel.mem T i) = false) → new.length = idxs.length) ∧
      Grows e.kernel (descend e idxs).kernel R new ∧
      ∃ T' ∈ R ++ new, T' < 2 ^ 40 ∧
        phys e.kernel.gHhdmOffset (descend e idxs).table = 4096 * T' := by
  induction idxs generalizing e T R path with
  | nil => exact ⟨[], by simp, by simp, by simp, Grows.refl h, T, by simpa using hT, hlt, hptr⟩
  | cons idx idxs ih =>
    obtain ⟨i, path, rfl, hidx, htail⟩ := indices_cons hpath
    rw [descend_cons] at hr ⊢
    cases hpresent : present (entry e.kernel.mem T i) with
    | true =>
      rw [Entered.next_present hptr hlt hidx hpresent] at hr ⊢
      obtain ⟨new, hres, hlen, -, hgrows, hT'⟩ := ih path
        (e := ⟨(entry e.kernel.mem T i &&& pteMask) + e.kernel.gHhdmOffset, e.kernel, e.results⟩)
        h (h.leads T hT i hpresent) (phys_mask _ _) (frame_lt _) htail hr
      refine ⟨new, hres, by rw [List.length_cons]; omega, fun hempty => ?_, hgrows, hT'⟩
      rw [hempty i] at hpresent
      contradiction
    | false =>
      obtain ⟨N, hN, hfree, hfirst, hNlt, hNptr, hnext⟩ := Entered.next_absent h.pmm hptr hlt
        hidx hpresent fun r hmem => hr r (descend_results_mono _ _ hmem)
      obtain ⟨hgrows, hempty⟩ := h.link (i := i) hT hN hfree hfirst
      rw [hnext] at hr ⊢
      obtain ⟨new, hres, hlen, hcount, hgrows', hT'⟩ := ih path
        (e := ⟨_, linkTable e.kernel N T i, e.results ++ [pageAddress N]⟩) (R := R ++ [N]) (T := N)
        hgrows.closed (by simp) hNptr hNlt htail hr
      refine ⟨N :: new, ?_, ?_, fun _ => ?_, hgrows.trans hgrows', ?_⟩
      · rw [hres, List.map_cons, List.append_assoc]
        rfl
      · rw [List.length_cons, List.length_cons]
        omega
      · rw [List.length_cons, List.length_cons, hcount hempty]
      · rw [List.append_assoc] at hT'
        exact hT'

end Vmm
end LucidiOS
