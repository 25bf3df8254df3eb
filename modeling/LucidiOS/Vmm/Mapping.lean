import LucidiOS.Vmm.VmmAlloc

/-! What the parts of `vmm_alloc` do to the page tables: the descent adds the missing tables, the
last store changes one translation. -/
namespace LucidiOS
open ByteMemory Paging Pmm

/-- Frame `t` holds a table of the hierarchy at `cr3`. -/
def Kernel.IsTable (s : Kernel) (t : ℕ) : Prop :=
  ∃ p : List (Fin 512), p.length ≤ 3 ∧ tableAt s.mem s.root p = some t

namespace Vmm

/-- The hierarchy is a tree of tables in distinct frames, all locked and apart from the page
bitmap. -/
structure PageTree (s : Kernel) : Prop where
  distinct : Distinct s.mem s.root
  locked : ∀ t, s.IsTable t → t < 64 * s.bitmapLength.toNat ∧ s.locked t = true
  apart : ∀ t, s.IsTable t → ¬s.HoldsBitmap t

/-- `s'` is `s` with the free pages `new` made into empty tables of the hierarchy. -/
structure Extends (s s' : Kernel) (new : List ℕ) : Prop where
  setup : s' = { s with mem := s'.mem }
  tree : PageTree s'
  pmm : PmmApart s'
  fresh : ∀ N ∈ new, N < scanned s.bitmapLength ∧ s.locked N = false
  locked : ∀ q < 64 * s.bitmapLength.toNat, s'.locked q = (s.locked q || decide (q ∈ new))
  table : ∀ p t, p.length ≤ 3 → tableAt s.mem s.root p = some t →
    tableAt s'.mem s'.root p = some t
  tables : ∀ t, s'.IsTable t → s.IsTable t ∨ t ∈ new
  made : ∀ t ∈ new, s'.IsTable t
  walk : ∀ v, walk s'.mem s'.root v = walk s.mem s.root v
  noLarge : ∀ path, NoLarge s.mem s.root path → NoLarge s'.mem s'.root path

theorem Extends.refl {s : Kernel} (ht : PageTree s) (hp : PmmApart s) : Extends s s [] where
  setup := rfl
  tree := ht
  pmm := hp
  fresh := by simp
  locked := by simp
  table _ _ _ h := h
  tables _ h := Or.inl h
  made := by simp
  walk _ := rfl
  noLarge _ h := h

theorem Extends.root_eq {s s' : Kernel} {new : List ℕ} (h : Extends s s' new) :
    s'.root = s.root := by
  rw [h.setup]
  rfl

theorem Extends.hhdm_eq {s s' : Kernel} {new : List ℕ} (h : Extends s s' new) :
    s'.gHhdmOffset = s.gHhdmOffset := by rw [h.setup]

theorem Extends.length_eq {s s' : Kernel} {new : List ℕ} (h : Extends s s' new) :
    s'.bitmapLength = s.bitmapLength := by rw [h.setup]

theorem Extends.trans {s s' s'' : Kernel} {new new' : List ℕ} (h : Extends s s' new)
    (h' : Extends s' s'' new') : Extends s s'' (new ++ new') where
  setup := by
    have := h'.setup
    rw [h.setup] at this
    exact this
  tree := h'.tree
  pmm := h'.pmm
  fresh N hN := by
    rcases List.mem_append.mp hN with hN | hN
    · exact h.fresh N hN
    · obtain ⟨hlt, hfree⟩ := h'.fresh N hN
      rw [h.length_eq] at hlt
      have hsc := scanned_le s.bitmapLength
      rw [h.locked N (by omega), Bool.or_eq_false_iff] at hfree
      exact ⟨hlt, hfree.1⟩
  locked q hq := by
    rw [h'.locked q (h.length_eq ▸ hq), h.locked q hq, Bool.or_assoc, ← Bool.decide_or]
    simp only [List.mem_append]
  table p t hp ht := h'.table p t hp (h.table p t hp ht)
  tables t ht := by
    rcases h'.tables t ht with ht | ht
    · rcases h.tables t ht with ht | ht
      · exact Or.inl ht
      · exact Or.inr (List.mem_append_left _ ht)
    · exact Or.inr (List.mem_append_right _ ht)
  made t ht := by
    rcases List.mem_append.mp ht with ht | ht
    · obtain ⟨p, hlen, htab⟩ := h.made t ht
      exact ⟨p, hlen, h'.table p t hlen htab⟩
    · exact h'.made t ht
  walk v := (h'.walk v).trans (h.walk v)
  noLarge path hpath := h'.noLarge path (h.noLarge path hpath)

section Link
variable {s : Kernel} {N T : ℕ} {p₀ : List (Fin 512)} {i₀ : Fin 512}

theorem linkTable_agree (ht : PageTree s) (hp : PmmApart s) (hN : N < 64 * s.bitmapLength.toNat)
    (hfree : s.locked N = false) :
    AgreeExcept s.mem (linkTable s N T i₀).mem s.root T i₀ := by
  refine ⟨fun p t i hlen htab hslot => ?_⟩
  have htable : s.IsTable t := ⟨p, hlen, htab⟩
  have hne : t ≠ N := by
    rintro rfl
    rw [(ht.locked t htable).2] at hfree
    contradiction
  exact linkTable_entry hp.fits hN hne hslot (ht.apart t htable)

/-- The hierarchy gets one table, at the end of the path. -/
theorem linkTable_tableAt (ht : PageTree s) (hp : PmmApart s)
    (hT : tableAt s.mem s.root p₀ = some T) (h₀ : p₀.length ≤ 2)
    (habs : present (entry s.mem T i₀) = false) (hN : N < 64 * s.bitmapLength.toNat)
    (hfree : s.locked N = false) :
    (∀ i, present (entry (linkTable s N T i₀).mem N i) = false) ∧
      (∀ p, p.length ≤ 3 → tableAt (linkTable s N T i₀).mem s.root p =
        if p = p₀ ++ [i₀] then some N else tableAt s.mem s.root p) ∧
      ∀ v, walk (linkTable s N T i₀).mem s.root v = walk s.mem s.root v := by
  have hTtable : s.IsTable T := ⟨p₀, by omega, hT⟩
  have hNT : N ≠ T := by
    rintro rfl
    rw [(ht.locked N hTtable).2] at hfree
    contradiction
  obtain ⟨hframe, hpres, hsmall⟩ := tableEntry_spec (hp.free N hN hfree).1
  have hag : AgreeExcept s.mem (linkTable s N T i₀).mem s.root T i₀ :=
    linkTable_agree ht hp hN hfree
  have hnew : child (linkTable s N T i₀).mem T i₀ = some N := by
    rw [child_eq_some, linkTable_slot]
    exact ⟨hpres, hsmall, hframe⟩
  have hempty (i : Fin 512) : present (entry (linkTable s N T i₀).mem N i) = false := by
    rw [linkTable_new s (Or.inl hNT)]
    rfl
  refine ⟨hempty, tableAt_link ht.distinct hT h₀ habs hag hnew hempty, fun v => ?_⟩
  exact walkFrom_link ht.distinct hT h₀ habs hag hnew hempty (indices v) [] s.root rfl rfl

theorem linkTable_isTable (ht : PageTree s) (hp : PmmApart s)
    (hT : tableAt s.mem s.root p₀ = some T) (h₀ : p₀.length ≤ 2)
    (habs : present (entry s.mem T i₀) = false) (hN : N < 64 * s.bitmapLength.toNat)
    (hfree : s.locked N = false) {t : ℕ} (h : (linkTable s N T i₀).IsTable t) :
    t = N ∨ s.IsTable t := by
  obtain ⟨-, htables, -⟩ := linkTable_tableAt ht hp hT h₀ habs hN hfree
  obtain ⟨p, hlen, htab⟩ := h
  change tableAt (linkTable s N T i₀).mem s.root p = some t at htab
  rw [htables p hlen] at htab
  split_ifs at htab with hpath
  · exact Or.inl (Option.some.inj htab).symm
  · exact Or.inr ⟨p, hlen, htab⟩

/-- The new table, locked now, makes no other table reachable twice. -/
theorem linkTable_tree (ht : PageTree s) (hp : PmmApart s) (hT : tableAt s.mem s.root p₀ = some T)
    (h₀ : p₀.length ≤ 2) (habs : present (entry s.mem T i₀) = false)
    (hN : N < 64 * s.bitmapLength.toNat) (hfree : s.locked N = false) :
    PageTree (linkTable s N T i₀) := by
  obtain ⟨-, htables, -⟩ := linkTable_tableAt ht hp hT h₀ habs hN hfree
  obtain ⟨-, hNapart⟩ := hp.free N hN hfree
  have hlocked (q : ℕ) (hq : q < 64 * s.bitmapLength.toNat) :=
    linkTable_locked (i := i₀) hp.fits hN hNapart (ht.apart T ⟨p₀, by omega, hT⟩) hq
  have hnotTable : ¬s.IsTable N := fun h => by
    rw [(ht.locked N h).2] at hfree
    contradiction
  constructor
  · intro p q t hlen hlen' hpt hqt
    change tableAt (linkTable s N T i₀).mem s.root p = some t at hpt
    change tableAt (linkTable s N T i₀).mem s.root q = some t at hqt
    rw [htables p hlen] at hpt
    rw [htables q hlen'] at hqt
    split_ifs at hpt hqt with hp' hq' hq'
    · rw [hp', hq']
    · exact absurd ⟨q, hlen', (Option.some.inj hpt) ▸ hqt⟩ hnotTable
    · exact absurd ⟨p, hlen, (Option.some.inj hqt) ▸ hpt⟩ hnotTable
    · exact ht.distinct p q t hlen hlen' hpt hqt
  · intro t h
    rcases linkTable_isTable ht hp hT h₀ habs hN hfree h with rfl | h
    · exact ⟨hN, by rw [hlocked t hN]; simp⟩
    · obtain ⟨hlt, hl⟩ := ht.locked t h
      exact ⟨hlt, by rw [hlocked t hlt, hl]; rfl⟩
  · intro t h
    rcases linkTable_isTable ht hp hT h₀ habs hN hfree h with rfl | h
    · exact hNapart
    · exact ht.apart t h

/-- A free page linked at an absent slot extends the hierarchy by one empty table. -/
theorem linkTable_extends (ht : PageTree s) (hp : PmmApart s) (hT : tableAt s.mem s.root p₀ = some T)
    (h₀ : p₀.length ≤ 2) (habs : present (entry s.mem T i₀) = false)
    (hscan : N < scanned s.bitmapLength) (hfree : s.locked N = false) :
    Extends s (linkTable s N T i₀) [N] ∧
      tableAt (linkTable s N T i₀).mem s.root (p₀ ++ [i₀]) = some N := by
  have hN : N < 64 * s.bitmapLength.toNat := by
    have := scanned_le s.bitmapLength
    omega
  have hTapart := ht.apart T ⟨p₀, by omega, hT⟩
  obtain ⟨hNlt, hNapart⟩ := hp.free N hN hfree
  obtain ⟨hempty, htables, hwalk⟩ := linkTable_tableAt ht hp hT h₀ habs hN hfree
  have hnewTable : tableAt (linkTable s N T i₀).mem s.root (p₀ ++ [i₀]) = some N := by
    rw [htables _ (by simp; omega), if_pos rfl]
  refine ⟨⟨rfl, linkTable_tree ht hp hT h₀ habs hN hfree, linkTable_apart hp hN hfree hTapart,
    ?_, ?_, ?_, ?_, ?_, hwalk, ?_⟩, hnewTable⟩
  · intro q hq
    rw [List.mem_singleton.mp hq]
    exact ⟨hscan, hfree⟩
  · intro q hq
    rw [linkTable_locked hp.fits hN hNapart hTapart hq]
    simp
  · intro p t hlen htab
    change tableAt (linkTable s N T i₀).mem s.root p = some t
    rw [htables p hlen, if_neg, htab]
    rintro rfl
    rw [tableAt_snoc, hT, Option.bind_some, child_eq_none_of_absent habs] at htab
    contradiction
  · intro t h
    rcases linkTable_isTable ht hp hT h₀ habs hN hfree h with rfl | h
    · exact Or.inr List.mem_cons_self
    · exact Or.inl h
  · intro t h
    rw [List.mem_singleton.mp h]
    exact ⟨p₀ ++ [i₀], by simp; omega, hnewTable⟩
  · intro path hpath p i t hpre hlen htab hpresent
    change tableAt (linkTable s N T i₀).mem s.root p = some t at htab
    rw [htables p (by omega)] at htab
    split_ifs at htab with hnewPath
    · rw [← Option.some.inj htab, hempty i] at hpresent
      contradiction
    · by_cases hs : t = T ∧ i = i₀
      · rw [hs.1, hs.2, linkTable_slot]
        exact (tableEntry_spec hNlt).2.2
      · have he := (linkTable_agree ht hp hN hfree).entry_eq p t i (by omega) htab (by tauto)
        rw [he] at hpresent ⊢
        exact hpath p i t hpre hlen htab hpresent

end Link

section Descend
variable {s : Kernel} {tableVirt idx : Word} {T : ℕ} {p₀ : List (Fin 512)} {i₀ : Fin 512}

/-- One level down: the next table is on the path, whether it was there or not. -/
theorem nextTable_extends (ht : PageTree s) (hp : PmmApart s)
    (hT : tableAt s.mem s.root p₀ = some T) (h₀ : p₀.length ≤ 2)
    (hptr : phys s.gHhdmOffset tableVirt = 4096 * T) (hlt : T < 2 ^ 40) (hi : idx.toNat = i₀)
    (hsmall : present (entry s.mem T i₀) = true → large (entry s.mem T i₀) = false)
    (hr : ∀ r ∈ (nextTable tableVirt idx s).results, r ≠ 0) :
    ∃ new : List ℕ, new.length ≤ 1 ∧
      (nextTable tableVirt idx s).results = new.map pageAddress ∧
      Extends s (nextTable tableVirt idx s).kernel new ∧
      ∃ N < 2 ^ 40, phys s.gHhdmOffset (nextTable tableVirt idx s).table = 4096 * N ∧
        tableAt (nextTable tableVirt idx s).kernel.mem s.root (p₀ ++ [i₀]) = some N := by
  cases hpresent : present (entry s.mem T i₀) with
  | true =>
    rw [nextTable_present hptr hlt hi hpresent]
    refine ⟨[], by simp, rfl, Extends.refl ht hp, frame (entry s.mem T i₀), frame_lt _,
      phys_mask _ _, ?_⟩
    rw [tableAt_snoc, hT, Option.bind_some, child_eq_some]
    exact ⟨hpresent, hsmall hpresent, rfl⟩
  | false =>
    obtain ⟨N, hN, hfree, -, heq⟩ := nextTable_absent hp hptr hlt hi hpresent hr
    have hNlt := (hp.free N (by have := scanned_le s.bitmapLength; omega) hfree).1
    obtain ⟨hext, htab⟩ := linkTable_extends ht hp hT h₀ hpresent hN hfree
    rw [heq]
    refine ⟨[N], by simp, rfl, hext, N, hNlt, ?_, htab⟩
    rw [phys_mask, (tableEntry_spec hNlt).1]

/-- The whole descent, by induction on the indices that remain. -/
theorem descend_extends (idxs : List Word) (p₀ path rest : List (Fin 512)) {e : Entered} {T : ℕ}
    (ht : PageTree e.kernel) (hp : PmmApart e.kernel)
    (hT : tableAt e.kernel.mem e.kernel.root p₀ = some T)
    (hptr : phys e.kernel.gHhdmOffset e.table = 4096 * T) (hlt : T < 2 ^ 40)
    (hpath : idxs.map BitVec.toNat = path.map Fin.val) (hlen : p₀.length + path.length ≤ 3)
    (hsmall : NoLarge e.kernel.mem e.kernel.root (p₀ ++ path ++ rest))
    (hr : ∀ r ∈ (descend e idxs).results, r ≠ 0) :
    ∃ new : List ℕ, new.length ≤ idxs.length ∧
      (descend e idxs).results = e.results ++ new.map pageAddress ∧
      Extends e.kernel (descend e idxs).kernel new ∧
      ∃ N < 2 ^ 40, phys e.kernel.gHhdmOffset (descend e idxs).table = 4096 * N ∧
        tableAt (descend e idxs).kernel.mem e.kernel.root (p₀ ++ path) = some N := by
  induction idxs generalizing e T p₀ path with
  | nil =>
    have hnil : path = [] := by simpa using hpath.symm
    subst hnil
    exact ⟨[], by simp, by simp, Extends.refl ht hp, T, hlt, hptr, by simpa using hT⟩
  | cons idx idxs ih =>
    obtain ⟨i, path, rfl, hidx, htail⟩ := indices_cons hpath
    simp only [List.length_cons] at hlen
    rw [descend_cons] at hr ⊢
    obtain ⟨new, hnew, hres, hext, N, hN, hNptr, hNtab⟩ := nextTable_extends ht hp hT (by omega)
      hptr hlt hidx (hsmall p₀ i T ⟨path ++ rest, by simp⟩ (by omega) hT)
      fun r h => hr r (descend_results_mono _ _ (List.mem_append_right _ h))
    rw [← hext.root_eq] at hNtab
    rw [← hext.hhdm_eq] at hNptr
    have hshape : p₀ ++ [i] ++ path = p₀ ++ i :: path := by simp
    have hsmall' := hext.noLarge _ hsmall
    rw [← hshape] at hsmall' ⊢
    obtain ⟨new', hnew', hres', hext', N', hN', hptr', htab'⟩ :=
      ih (p₀ ++ [i]) path (e := e.next idx) hext.tree hext.pmm hNtab hNptr hN htail
        (by simp; omega) hsmall' hr
    refine ⟨new ++ new', ?_, ?_, hext.trans hext', N', hN', ?_, ?_⟩
    · simp only [List.length_append, List.length_cons]
      omega
    · rw [hres', Entered.next, hres, List.map_append, List.append_assoc]
    · rw [← hptr']
      exact congrArg (phys · _) hext.hhdm_eq.symm
    · rw [← htab']
      exact congrArg (tableAt _ · _) hext.root_eq.symm

end Descend

section Store
variable {s : Kernel} {T : ℕ} {p₀ : List (Fin 512)}

/-- A store to a last-level slot changes one walk and no table. -/
theorem storeEntry_spec (ht : PageTree s) (hp : PmmApart s) (hT : tableAt s.mem s.root p₀ = some T)
    (h₀ : p₀.length = 3) (i₀ : Fin 512) (w : Word) :
    PageTree (storeEntry s T i₀ w) ∧ PmmApart (storeEntry s T i₀ w) ∧
      (∀ p, p.length ≤ 3 →
        tableAt (storeEntry s T i₀ w).mem s.root p = tableAt s.mem s.root p) ∧
      (∀ v, indices v ≠ p₀ ++ [i₀] →
        walk (storeEntry s T i₀ w).mem s.root v = walk s.mem s.root v) ∧
      (∀ path, NoLarge s.mem s.root path → NoLarge (storeEntry s T i₀ w).mem s.root path) := by
  have hapart := ht.apart T ⟨p₀, by omega, hT⟩
  have hag : AgreeExcept s.mem (storeEntry s T i₀ w).mem s.root T i₀ :=
    ⟨fun _ _ _ _ _ hslot => entry_store_apart _ w hslot⟩
  have htables := tableAt_set ht.distinct hT h₀ hag
  have hlocked (q : ℕ) (hq : q < 64 * s.bitmapLength.toNat) :=
    storeEntry_locked (i := i₀) hp.fits hapart w hq
  have htable (t : ℕ) (h : (storeEntry s T i₀ w).IsTable t) : s.IsTable t := by
    obtain ⟨p, hlen, htab⟩ := h
    exact ⟨p, hlen, (htables p hlen) ▸ htab⟩
  refine ⟨⟨?_, ?_, ?_⟩, ⟨hp.fits, ?_⟩, htables, ?_, ?_⟩
  · intro p q t hlen hlen' hpt hqt
    exact ht.distinct p q t hlen hlen' ((htables p hlen) ▸ hpt) ((htables q hlen') ▸ hqt)
  · intro t h
    obtain ⟨hlt, hl⟩ := ht.locked t (htable t h)
    exact ⟨hlt, by rw [hlocked t hlt, hl]⟩
  · exact fun t h => ht.apart t (htable t h)
  · intro q hq hl
    exact hp.free q hq ((hlocked q hq) ▸ hl)
  · intro v hv
    exact walkFrom_set ht.distinct hT h₀ hag rfl hv
  · intro path hpath p i t hpre hlen htab hpresent
    rw [htables p (by omega)] at htab
    have hne : t ≠ T := by
      rintro rfl
      have := ht.distinct p p₀ t (by omega) (by omega) htab hT
      rw [this] at hlen
      omega
    have he := hag.entry_eq p t i (by omega) htab (Or.inl hne)
    rw [he] at hpresent ⊢
    exact hpath p i t hpre hlen htab hpresent

end Store

end Vmm
end LucidiOS
