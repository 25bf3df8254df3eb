import LucidiOS.Control.StepSequence
import LucidiOS.Paging.TranslationCache
import LucidiOS.Vmm.Exhaustion
import LucidiOS.Vmm.MemoryRuns

/-! `vmm_alloc` beside a processor that walks the tables and fills its translation caches between
any two stores. -/
namespace LucidiOS.Vmm
open ByteMemory Paging Pmm StepSequence

/-- The single stores of a write: `memset` stores byte by byte. -/
def VmmWrite.stores (s : Kernel) : VmmWrite → List (Memory → Memory)
  | .clear table => (List.range 4096).map fun i m =>
      Function.update m (phys s.gHhdmOffset (table + BitVec.ofNat 64 i)) 0
  | w => [fun m => w.apply s m]

def storesOf (s : Kernel) (ws : List VmmWrite) : List (Memory → Memory) :=
  ws.flatMap (VmmWrite.stores s)

/-- The stores of `vmm_alloc` before its `invlpg`, in order. -/
def vmmAllocStores (virt physAddr : Word) (flags : BitVec 8) (s : Kernel) :
    List (Memory → Memory) := storesOf s (vmmAllocWrites virt physAddr flags s)

/-- The writes of a descent. -/
def descendWrites (e : Entered) : List Word → List VmmWrite
  | [] => []
  | idx :: idxs => nextTableWrites e.table idx e.kernel ++ descendWrites (e.next idx) idxs

section Stores
variable {g s : Kernel}

theorem VmmWrite.stores_run (s : Kernel) (w : VmmWrite) (m : Memory) :
    run (w.stores s) m = w.apply s m := by
  cases w with
  | clear table =>
    simp only [VmmWrite.stores, VmmWrite.apply, run, List.foldl_map]
    unfold memset
    rfl
  | lock _ => rfl
  | link _ _ => rfl
  | map _ _ => rfl

theorem storesOf_run (s : Kernel) (ws : List VmmWrite) (m : Memory) :
    run (storesOf s ws) m = ws.foldl (VmmWrite.apply s) m := by
  induction ws generalizing m with
  | nil => rfl
  | cons w ws ih =>
    rw [storesOf, List.flatMap_cons, run_append, VmmWrite.stores_run]
    exact ih _

theorem storesOf_append (s : Kernel) (ws ws' : List VmmWrite) :
    storesOf s (ws ++ ws') = storesOf s ws ++ storesOf s ws' := List.flatMap_append

theorem storesOf_congr (h : SameGlobals g s) (ws : List VmmWrite) :
    storesOf g ws = storesOf s ws := by
  have hstores : VmmWrite.stores g = VmmWrite.stores s := by
    funext w
    cases w <;> simp only [VmmWrite.stores, h.hhdm_eq, VmmWrite.apply, h.pmm_eq]
  rw [storesOf, storesOf, hstores]

theorem vmmAllocWrites_eq (virt physAddr : Word) (flags : BitVec 8) (s : Kernel) :
    ∃ slot, vmmAllocWrites virt physAddr flags s =
      descendWrites (topTable s) (descentIndices virt) ++
        [.map slot (pageEntry physAddr flags)] := by
  refine ⟨entrySlot (descend (topTable s) (descentIndices virt)).table ((virt >>> 12) &&& 0x1FF), ?_⟩
  simp only [vmmAllocWrites, descendWrites, descend, descentIndices, topTable, Entered.next,
    List.foldl_cons, List.foldl_nil, List.append_nil, List.append_assoc, pageEntry, pteMask]

/-- The frames of the tables hold what they hold in `s`. -/
def TablesSame (s : Kernel) (m : Memory) : Prop := ∀ x, s.IsTable (x / 4096) → m x = s.mem x

theorem TablesSame.hierarchy {m : Memory} (h : TablesSame s m) :
    (∀ p, p.length ≤ 3 → tableAt m s.root p = tableAt s.mem s.root p) ∧
      ∀ v, walk m s.root v = walk s.mem s.root v := by
  obtain ⟨htables, -, hwalk⟩ := walk_congr (m := m) fun t ht x hx => h x (hx ▸ ht)
  exact ⟨htables, hwalk⟩

theorem TablesSame.quiet {m m' : Memory} (h : TablesSame s m)
    (hkept : ∀ p t, p.length ≤ 3 → tableAt s.mem s.root p = some t →
      tableAt m' s.root p = some t)
    (hwalk : ∀ v, walk m' s.root v = walk s.mem s.root v) : Caches.Quiet m m' s.root := by
  obtain ⟨htables, hwalks⟩ := h.hierarchy
  exact ⟨fun p t hp ht => hkept p t hp ((htables p hp) ▸ ht),
    fun v => (hwalk v).trans (hwalks v).symm⟩

/-- Steps that store outside the tables are quiet. -/
theorem each_quiet {fs : List (Memory → Memory)}
    (hout : ∀ f ∈ fs, ∀ m x, s.IsTable (x / 4096) → f m x = m x) {m : Memory}
    (hm : TablesSame s m) :
    Each (Caches.Quiet · · s.root) fs m ∧ TablesSame s (run fs m) := by
  refine each_of_invariant (fun f hf m hI => ?_) hm
  have hI' : TablesSame s (f m) := fun x hx => (hout f hf m x hx).trans (hI x hx)
  obtain ⟨htables, hwalk⟩ := hI'.hierarchy
  exact ⟨hI', hI.quiet (fun p t hp ht => (htables p hp).trans ht) hwalk⟩

section Level
variable {tableVirt idx : Word} {T : ℕ} {p₀ : List (Fin 512)} {i₀ : Fin 512}

/-- Locking and clearing the page of a missing table touches no table. -/
theorem nextTable_prepares (ht : PageTree s) (hp : PmmApart s)
    (hr : (pmmAlloc2 s.pmm s.bitmapLength s.mem).1 ≠ 0) :
    ∀ f ∈ storesOf s (pmmAlloc2Writes s ++
        [.clear ((pmmAlloc2 s.pmm s.bitmapLength s.mem).1 + s.gHhdmOffset)]),
      ∀ m x, s.IsTable (x / 4096) → f m x = m x := by
  obtain ⟨N, hN, hclear, hset, heq⟩ := pmmAlloc2_ne_zero hr
  have hN' : N < 64 * s.bitmapLength.toNat := by
    have := scanned_le s.bitmapLength
    omega
  have hNlt := (hp.free N hN' hclear).1
  have haddr := page_address_toNat (show N < 2 ^ 52 by omega)
  have hlock : pmmAlloc2Writes s = [.lock (BitVec.ofNat 64 N)] := by
    rw [pmmAlloc2Writes, pmmScan_eq, WordArray.firstClear_eq_some.mpr ⟨hN, hclear, hset⟩]
    simp only [Option.map_some, Nat.div_add_mod' N 64]
  intro f hf m x hx
  have hxN : x / 4096 ≠ N := by
    intro hc
    have hl := (ht.locked _ hx).2
    rw [hc, Kernel.locked, hclear] at hl
    contradiction
  rw [hlock, heq, storesOf_append] at hf
  rcases List.mem_append.mp hf with hf | hf
  · obtain rfl : f = fun m => pmmLockPage s.pmm (BitVec.ofNat 64 N) m := by
      simpa [storesOf, VmmWrite.stores, VmmWrite.apply] using hf
    have hnat : (BitVec.ofNat 64 N).toNat = N := Nat.mod_eq_of_lt (by omega)
    change pmmLockPage s.pmm _ m x = m x
    rw [pmmLockPage_eq, hnat]
    exact setBit_outside hp.fits m hN' (ht.apart _ hx)
  · simp only [storesOf, VmmWrite.stores, List.flatMap_cons, List.flatMap_nil, List.append_nil,
      List.mem_map, List.mem_range] at hf
    obtain ⟨i, hi, rfl⟩ := hf
    have hptr := phys_add_self s.gHhdmOffset (BitVec.ofNat 64 N * 4096)
    refine Function.update_of_ne (fun hc => hxN ?_) _ _
    rw [hc, phys_add (by omega), hptr, haddr]
    omega

/-- Between any two stores of a level the tables are those before it; the last one may add a
table. -/
theorem nextTable_quiet (ht : PageTree s) (hp : PmmApart s)
    (hT : tableAt s.mem s.root p₀ = some T) (h₀ : p₀.length ≤ 2)
    (hptr : phys s.gHhdmOffset tableVirt = 4096 * T) (hlt : T < 2 ^ 40) (hi : idx.toNat = i₀)
    (hsmall : present (entry s.mem T i₀) = true → large (entry s.mem T i₀) = false)
    (hr : ∀ r ∈ (nextTable tableVirt idx s).results, r ≠ 0) :
    Each (Caches.Quiet · · s.root) (storesOf s (nextTableWrites tableVirt idx s)) s.mem := by
  obtain ⟨new, -, -, hext, -⟩ := nextTable_extends ht hp hT h₀ hptr hlt hi hsmall hr
  have hrun : run (storesOf s (nextTableWrites tableVirt idx s)) s.mem =
      (nextTable tableVirt idx s).kernel.mem :=
    (storesOf_run s _ _).trans (nextTableWrites_apply _ _ (SameGlobals.set_mem s s.mem))
  have hroot := hext.root_eq
  have htables := hext.table
  have hwalk := hext.walk
  rw [hroot] at htables hwalk
  clear hext
  generalize (nextTable tableVirt idx s).kernel.mem = m' at hrun htables hwalk
  rw [nextTableWrites] at hrun ⊢
  dsimp only at hrun ⊢
  split_ifs at hrun ⊢ with habsent
  · have hne : (pmmAlloc2 s.pmm s.bitmapLength s.mem).1 ≠ 0 := by
      refine hr _ ?_
      rw [nextTable]
      simp only [if_pos habsent]
      exact List.mem_singleton_self _
    rw [List.append_cons, storesOf_append] at hrun ⊢
    obtain ⟨hquiet, hsame⟩ := each_quiet (nextTable_prepares ht hp hne) fun _ _ => rfl
    refine each_append.mpr ⟨hquiet, ?_⟩
    rw [run_append] at hrun
    change VmmWrite.apply s _ (.link _ _) = m' at hrun
    refine each_singleton.mpr ?_
    rw [hrun]
    exact hsame.quiet htables hwalk
  · trivial

/-- The whole descent, by induction on the indices that remain. -/
theorem descend_quiet (idxs : List Word) (p₀ path rest : List (Fin 512)) {e : Entered} {T : ℕ}
    (hg : SameGlobals g e.kernel) (ht : PageTree e.kernel) (hp : PmmApart e.kernel)
    (hT : tableAt e.kernel.mem e.kernel.root p₀ = some T)
    (hptr : phys e.kernel.gHhdmOffset e.table = 4096 * T) (hlt : T < 2 ^ 40)
    (hpath : idxs.map BitVec.toNat = path.map Fin.val) (hlen : p₀.length + path.length ≤ 3)
    (hsmall : NoLarge e.kernel.mem e.kernel.root (p₀ ++ path ++ rest))
    (hr : ∀ r ∈ (descend e idxs).results, r ≠ 0) :
    Each (Caches.Quiet · · e.kernel.root) (storesOf g (descendWrites e idxs)) e.kernel.mem ∧
      run (storesOf g (descendWrites e idxs)) e.kernel.mem = (descend e idxs).kernel.mem := by
  induction idxs generalizing e T p₀ path with
  | nil => exact ⟨trivial, rfl⟩
  | cons idx idxs ih =>
    obtain ⟨i, path, rfl, hidx, htail⟩ := indices_cons hpath
    simp only [List.length_cons] at hlen
    have hstep := hsmall p₀ i T ⟨path ++ rest, by simp⟩ (by omega) hT
    have hres : ∀ r ∈ (nextTable e.table idx e.kernel).results, r ≠ 0 :=
      fun r h => hr r (descend_results_mono idxs (e.next idx) (List.mem_append_right _ h))
    obtain ⟨new, -, -, hext, N, hN, hNptr, hNtab⟩ := nextTable_extends ht hp hT (by omega) hptr
      hlt hidx hstep hres
    rw [← hext.root_eq] at hNtab
    rw [← hext.hhdm_eq] at hNptr
    have hsmall' := hext.noLarge _ hsmall
    rw [show p₀ ++ i :: path = p₀ ++ [i] ++ path by simp] at hsmall'
    have hquiet := nextTable_quiet ht hp hT (by omega) hptr hlt hidx hstep hres
    obtain ⟨heach, hrun⟩ := ih (p₀ ++ [i]) path (e := e.next idx)
      (hg.trans (nextTable_globals _ _ _)) hext.tree hext.pmm hNtab hNptr hN htail
      (by simp; omega) hsmall' hr
    have hfirst : run (storesOf g (nextTableWrites e.table idx e.kernel)) e.kernel.mem =
        (e.next idx).kernel.mem := by
      rw [storesOf_run]
      exact nextTableWrites_apply _ _ hg
    rw [descendWrites, storesOf_append, run_append, each_append, hfirst]
    refine ⟨⟨?_, ?_⟩, hrun⟩
    · rw [storesOf_congr hg]
      exact hquiet
    · rw [show e.kernel.root = (e.next idx).kernel.root from hext.root_eq.symm]
      exact heach

end Level

section Call
variable {virt physAddr : Word} {flags : BitVec 8}

/-- All stores of `vmm_alloc` but the last are quiet; the last one changes the translation of one
page. -/
theorem vmmAlloc_stores (h : Sound s) (hr : ∀ r ∈ (vmmAlloc virt physAddr flags s).2, r ≠ 0) :
    ∃ fs last, vmmAllocStores virt physAddr flags s = fs ++ [last] ∧
      Each (Caches.Quiet · · s.root) fs s.mem ∧
      last (run fs s.mem) = (vmmAlloc virt physAddr flags s).1.mem ∧
      Caches.TablesKept (run fs s.mem) (last (run fs s.mem)) s.root ∧
      ∀ v, pageNumber v ≠ pageNumber virt →
        walk (last (run fs s.mem)) s.root v = walk (run fs s.mem) s.root v := by
  obtain ⟨slot, hwrites⟩ := vmmAllocWrites_eq virt physAddr flags s
  obtain ⟨k, T, new, hk, -, -, hext, htab, hstore⟩ :=
    vmmAlloc_descends h.tree h.pmm (h.noLarge _) hr
  obtain ⟨-, -, htables, hwalk, -⟩ := storeEntry_spec hext.tree hext.pmm htab (by simp)
    (index virt 0) (pageEntry physAddr flags)
  obtain ⟨heach, hrun⟩ := descend_quiet (descentIndices virt) []
    [index virt 3, index virt 2, index virt 1] [index virt 0] (e := topTable s)
    (SameGlobals.set_mem s s.mem) h.tree h.pmm (tableAt_nil _ _) (phys_mask _ _) (frame_lt s.cr3)
    (descentIndices_toNat virt) (by simp) (h.noLarge _)
    ((vmmAlloc_eq virt physAddr flags s).1 ▸ hr)
  rw [← hk] at hrun
  refine ⟨storesOf s (descendWrites (topTable s) (descentIndices virt)),
    fun m => VmmWrite.apply s m (.map slot (pageEntry physAddr flags)), ?_, heach, ?_⟩
  · rw [vmmAllocStores, hwrites, storesOf_append]
    rfl
  have hlast : VmmWrite.apply s
      (run (storesOf s (descendWrites (topTable s) (descentIndices virt))) s.mem)
      (.map slot (pageEntry physAddr flags)) = (vmmAlloc virt physAddr flags s).1.mem := by
    rw [← vmmAllocWrites_apply, hwrites, List.foldl_append, storesOf_run]
    rfl
  change run (storesOf s _) s.mem = k.mem at hrun
  rw [hrun] at hlast ⊢
  dsimp only
  rw [hlast, hstore]
  rw [hext.root_eq] at htables hwalk
  refine ⟨rfl, fun p t hp ht => ?_, fun v hv => ?_⟩
  · exact (htables p hp).trans ht
  · exact hwalk v fun hc => hv (indices_eq_iff.mp hc)

/-- The result of a call is sound again. -/
theorem Sound.vmmAlloc (h : Sound s) (hr : ∀ r ∈ (vmmAlloc virt physAddr flags s).2, r ≠ 0) :
    Sound (vmmAlloc virt physAddr flags s).1 :=
  ((represents_initial h).map hr).sound

end Call
end Stores

/-- Where the kernel is in a call of `vmm_alloc`. -/
inductive Phase
  | idle
  | storing (virt : Word) (rest : List (Memory → Memory))
  | flushing (virt : Word) (before : Memory)

/-- The kernel and the caches of the processor it runs on. `after` is the kernel at the end of
the call in progress. -/
structure Cpu where
  kernel : Kernel
  caches : Caches
  phase : Phase
  after : Kernel

/-- Every order of the kernel's stores and the processor's own moves. Between calls of `vmm_alloc`
the kernel may do whatever keeps the tables. -/
inductive CpuRun (start : Kernel) (caches : Caches) : Cpu → Prop
  | start : CpuRun start caches ⟨start, caches, .idle, start⟩
  | moves {x : Cpu} {c : Caches} (run : CpuRun start caches x)
      (hmove : Caches.Moves x.kernel.mem x.kernel.root x.caches c) :
      CpuRun start caches { x with caches := c }
  | other {x : Cpu} {m : Memory} (run : CpuRun start caches x) (hphase : x.phase = .idle)
      (hsound : Sound { x.kernel with mem := m }) (hsame : TablesSame x.kernel m) :
      CpuRun start caches
        { x with kernel := { x.kernel with mem := m }, after := { x.kernel with mem := m } }
  | call {x : Cpu} {virt physAddr : Word} {flags : BitVec 8} (run : CpuRun start caches x)
      (hphase : x.phase = .idle) (hr : ∀ r ∈ (vmmAlloc virt physAddr flags x.kernel).2, r ≠ 0) :
      CpuRun start caches
        { x with
          phase := .storing virt (vmmAllocStores virt physAddr flags x.kernel)
          after := (vmmAlloc virt physAddr flags x.kernel).1 }
  | store {x : Cpu} {virt : Word} {f g : Memory → Memory} {fs : List (Memory → Memory)}
      (run : CpuRun start caches x) (hphase : x.phase = .storing virt (f :: g :: fs)) :
      CpuRun start caches
        { x with
          kernel := { x.kernel with mem := f x.kernel.mem }
          phase := .storing virt (g :: fs) }
  | last {x : Cpu} {virt : Word} {f : Memory → Memory} (run : CpuRun start caches x)
      (hphase : x.phase = .storing virt [f]) :
      CpuRun start caches
        { x with
          kernel := { x.kernel with mem := f x.kernel.mem }
          phase := .flushing virt x.kernel.mem }
  | invlpg {x : Cpu} {virt : Word} {before : Memory} (run : CpuRun start caches x)
      (hphase : x.phase = .flushing virt before) :
      CpuRun start caches { x with caches := x.caches.invlpg virt, phase := .idle }

/-- What holds of the caches in each phase. -/
def Cpu.Good (x : Cpu) : Prop :=
  let m := x.kernel.mem
  let root := x.kernel.root
  match x.phase with
  | .idle => Sound x.kernel ∧ Caches.Coherent m m root x.caches ∧ x.after = x.kernel
  | .storing virt rest => Caches.Coherent m m root x.caches ∧ Sound x.after ∧
      ∃ fs last, rest = fs ++ [last] ∧ Each (Caches.Quiet · · root) fs m ∧
        x.after = { x.kernel with mem := last (run fs m) } ∧
        Caches.TablesKept (run fs m) (last (run fs m)) root ∧
        ∀ v, pageNumber v ≠ pageNumber virt →
          walk (last (run fs m)) root v = walk (run fs m) root v
  | .flushing virt before => Caches.Coherent before m root x.caches ∧ Sound x.kernel ∧
      x.after = x.kernel ∧
      ∀ v, pageNumber v ≠ pageNumber virt → walk m root v = walk before root v

section Run
variable {start : Kernel} {caches : Caches} {x : Cpu}

theorem Cpu.Good.moves {c : Caches} (h : x.Good)
    (hmove : Caches.Moves x.kernel.mem x.kernel.root x.caches c) :
    ({ x with caches := c } : Cpu).Good := by
  cases hphase : x.phase with
  | idle =>
    simp only [Cpu.Good, hphase] at h ⊢
    exact ⟨h.1, h.2.1.moves hmove, h.2.2⟩
  | storing virt rest =>
    simp only [Cpu.Good, hphase] at h ⊢
    exact ⟨h.1.moves hmove, h.2⟩
  | flushing virt before =>
    simp only [Cpu.Good, hphase] at h ⊢
    exact ⟨h.1.moves hmove, h.2⟩

theorem Cpu.Good.call {virt physAddr : Word} {flags : BitVec 8} (h : x.Good)
    (hphase : x.phase = .idle) (hr : ∀ r ∈ (vmmAlloc virt physAddr flags x.kernel).2, r ≠ 0) :
    ({ x with
        phase := .storing virt (vmmAllocStores virt physAddr flags x.kernel)
        after := (vmmAlloc virt physAddr flags x.kernel).1 } : Cpu).Good := by
  simp only [Cpu.Good, hphase] at h ⊢
  obtain ⟨hsound, hcoherent, -⟩ := h
  obtain ⟨fs, last, heq, heach, hlast, hkept, hother⟩ := vmmAlloc_stores hsound hr
  refine ⟨hcoherent, hsound.vmmAlloc hr, fs, last, heq, heach, ?_, hkept, hother⟩
  rw [hlast]
  exact vmmAlloc_globals virt physAddr flags x.kernel

theorem Cpu.Good.store {virt : Word} {f g : Memory → Memory} {fs : List (Memory → Memory)}
    (h : x.Good) (hphase : x.phase = .storing virt (f :: g :: fs)) :
    ({ x with
        kernel := { x.kernel with mem := f x.kernel.mem }
        phase := .storing virt (g :: fs) } : Cpu).Good := by
  simp only [Cpu.Good, hphase] at h ⊢
  obtain ⟨hcoherent, hsound, hs, last, heq, heach, hafter, hkept, hother⟩ := h
  cases hs with
  | nil => simp at heq
  | cons f' hs =>
    rw [List.cons_append, List.cons.injEq] at heq
    obtain ⟨rfl, heq⟩ := heq
    exact ⟨hcoherent.quiet heach.1, hsound, hs, last, heq, heach.2, hafter, hkept, hother⟩

theorem Cpu.Good.last {virt : Word} {f : Memory → Memory} (h : x.Good)
    (hphase : x.phase = .storing virt [f]) :
    ({ x with
        kernel := { x.kernel with mem := f x.kernel.mem }
        phase := .flushing virt x.kernel.mem } : Cpu).Good := by
  simp only [Cpu.Good, hphase] at h ⊢
  obtain ⟨hcoherent, hsound, hs, last, heq, -, hafter, hkept, hother⟩ := h
  cases hs with
  | nil =>
    obtain rfl : f = last := by simpa using heq
    exact ⟨hcoherent.stale hkept, hafter ▸ hsound, hafter, hother⟩
  | cons f' hs => simp at heq

/-- Every state of a run is good. -/
theorem CpuRun.good (hstart : Sound start)
    (hcaches : Caches.Coherent start.mem start.mem start.root caches)
    (run : CpuRun start caches x) : x.Good := by
  induction run with
  | start => exact ⟨hstart, hcaches, rfl⟩
  | moves _ hmove ih => exact ih.moves hmove
  | other _ hphase hsound hsame ih =>
    simp only [Cpu.Good, hphase] at ih ⊢
    obtain ⟨htables, hwalk⟩ := hsame.hierarchy
    exact ⟨hsound, ih.2.1.quiet ⟨fun p t hp ht => (htables p hp).trans ht, hwalk⟩, trivial⟩
  | call _ hphase hr ih => exact ih.call hphase hr
  | store _ hphase ih => exact ih.store hphase
  | last _ hphase ih => exact ih.last hphase
  | invlpg _ hphase ih =>
    simp only [Cpu.Good, hphase] at ih ⊢
    exact ⟨ih.2.1, ih.1.invlpg ih.2.2.2, ih.2.2.1⟩

/-- Between calls the caches agree with the tables. During a call every translation that the
processor can use is the one in the tables, except that after the last store and before the
`invlpg` the page being mapped may still have its old one. -/
theorem cpuRun_coherent (hstart : Sound start)
    (hcaches : Caches.Coherent start.mem start.mem start.root caches)
    (run : CpuRun start caches x) :
    (∀ v o, Caches.Uses x.kernel.mem x.kernel.root x.caches v o →
      o = walk x.kernel.mem x.kernel.root v ∨
        ∃ virt before, x.phase = .flushing virt before ∧ pageNumber v = pageNumber virt ∧
          o = walk before x.kernel.root v) ∧
    (x.phase = .idle → x.kernel = x.after) := by
  have hgood := run.good hstart hcaches
  unfold Cpu.Good at hgood
  dsimp only at hgood
  constructor
  · intro v o huse
    cases hphase : x.phase with
    | idle =>
      rw [hphase] at hgood
      exact Or.inl ((hgood.2.1.uses huse).elim id id)
    | storing virt rest =>
      rw [hphase] at hgood
      exact Or.inl ((hgood.1.uses huse).elim id id)
    | flushing virt before =>
      rw [hphase] at hgood
      rcases hgood.1.uses huse with ho | ho
      · exact Or.inl ho
      · by_cases hv : pageNumber v = pageNumber virt
        · exact Or.inr ⟨virt, before, rfl, hv, ho⟩
        · exact Or.inl (ho.trans (hgood.2.2.2 v hv).symm)
  · intro hphase
    rw [hphase] at hgood
    exact hgood.2.2.symm

/-- The stores that remain can be carried out, with the caches as they are. -/
theorem CpuRun.carry_out {virt : Word} {fs : List (Memory → Memory)} {last : Memory → Memory}
    (run : CpuRun start caches x) (hphase : x.phase = .storing virt (fs ++ [last])) :
    ∃ y before, CpuRun start caches y ∧ y.phase = .flushing virt before ∧ y.caches = x.caches ∧
      y.after = x.after := by
  induction fs generalizing x with
  | nil => exact ⟨_, _, run.last hphase, rfl, rfl, rfl⟩
  | cons f fs ih =>
    obtain ⟨g, gs, hrest⟩ := List.exists_cons_of_ne_nil (show fs ++ [last] ≠ [] by simp)
    rw [List.cons_append, hrest] at hphase
    obtain ⟨y, before, hy⟩ := ih (run.store hphase) (congrArg (Phase.storing virt) hrest.symm)
    exact ⟨y, before, hy⟩

/-- A call can be carried out up to its `invlpg`. -/
theorem CpuRun.exists_flushing (hstart : Sound start)
    (hcaches : Caches.Coherent start.mem start.mem start.root caches)
    (run : CpuRun start caches x) (hphase : x.phase = .idle) {virt physAddr : Word}
    {flags : BitVec 8} (hr : ∀ r ∈ (vmmAlloc virt physAddr flags x.kernel).2, r ≠ 0) :
    ∃ y before, CpuRun start caches y ∧ y.phase = .flushing virt before ∧ y.caches = x.caches ∧
      y.kernel = (vmmAlloc virt physAddr flags x.kernel).1 := by
  have hgood := run.good hstart hcaches
  simp only [Cpu.Good, hphase] at hgood
  obtain ⟨fs, last, heq, -⟩ := vmmAlloc_stores hgood.1 hr
  obtain ⟨y, before, hy, hflushing, hsame, hafter⟩ :=
    (run.call hphase hr).carry_out (congrArg (Phase.storing virt) heq)
  have hgood' := hy.good hstart hcaches
  simp only [Cpu.Good, hflushing] at hgood'
  exact ⟨y, before, hy, hflushing, hsame, hgood'.2.2.1.symm.trans hafter⟩

end Run

/-- A page that is mapped is mapped anew. Its cached translation is used up to the `invlpg`. -/
theorem cpuRun_coherent_remapped : ∃ x before, CpuRun emptyTables .empty x ∧
    x.phase = .flushing 0x40000000 before ∧
    Caches.Uses x.kernel.mem x.kernel.root x.caches 0x40000000 (some ⟨0, pageEntry 0x5000 3⟩) ∧
    walk x.kernel.mem x.kernel.root 0x40000000 = some ⟨0, pageEntry 0x6000 3⟩ ∧
    ∀ o, Caches.Uses x.kernel.mem x.kernel.root (x.caches.invlpg 0x40000000) 0x40000000 o →
      o = some ⟨0, pageEntry 0x6000 3⟩ := by
  have hcaches := Caches.empty_coherent emptyTables.mem emptyTables.mem emptyTables.root
  have hr : ∀ r ∈ (vmmAlloc 0x40000000 0x5000 3 emptyTables).2, r ≠ 0 :=
    vmmAlloc_supplied 0x5000 3 emptyTables_tree emptyTables_pmm (emptyTables_noLarge _)
      emptyTables_supplied
  have hrep := (represents_initial emptyTables_sound).map hr
  have hold := (hrep.translates 0x40000000).trans (PagedMemory.map_pages _ _ _)
  obtain ⟨y, before, hy, hflushing, -, hkernel⟩ :=
    CpuRun.exists_flushing emptyTables_sound hcaches .start rfl hr
  rw [← hkernel] at hrep hold
  -- the page is mapped, and its translation is cached
  have hcached := (hy.invlpg hflushing).moves (.page (p := []) (Or.inl ⟨rfl, rfl⟩) rfl
    (List.cons_ne_nil _ _) hold)
  have hr' : ∀ r ∈ (vmmAlloc 0x40000000 0x6000 3 y.kernel).2, r ≠ 0 := by
    refine vmmAlloc_enough _ _ hrep.sound.tree hrep.sound.pmm (hrep.sound.noLarge _) ?_
    rw [firstSlot_missing_of_walk hold]
    exact ⟨hrep.sound.zero, hrep.sound.length_pos, hrep.length_eq ▸ by decide, ∅, le_rfl, by simp⟩
  have hnew := ((hrep.map hr').translates 0x40000000).trans (PagedMemory.map_pages _ _ _)
  obtain ⟨x, before', hx, hflushing', hsame, hkernel'⟩ :=
    CpuRun.exists_flushing emptyTables_sound hcaches hcached rfl hr'
  have hwalk : walk x.kernel.mem x.kernel.root 0x40000000 = some ⟨0, pageEntry 0x6000 3⟩ := by
    rw [hkernel']
    exact hnew
  refine ⟨x, before', hx, hflushing', .hit ?_, hwalk, fun o huse => ?_⟩
  · simp only [hsame, Function.update_self]
  · rcases (cpuRun_coherent emptyTables_sound hcaches (hx.invlpg hflushing')).1 _ o huse with
      ho | ⟨_, _, hphase, -⟩
    · exact ho.trans hwalk
    · cases hphase

end LucidiOS.Vmm
