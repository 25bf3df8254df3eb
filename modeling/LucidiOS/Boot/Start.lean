import LucidiOS.Acpi.Discovery
import LucidiOS.Boot.Sequence

/-! From the bootloader's page tables and memory map to the start of the mapping sequence, and what
becomes of a bootloader that maps the first GiB with small pages. -/
namespace LucidiOS.Boot
open ByteMemory Paging Pmm Vmm Heap Acpi

/-- What the bootloader leaves. The direct map in the higher half leads to every page of `ram`, to
which the usable memory and the page tables belong; the tables are not in usable memory, but in
memory that the map describes. `ioapic_base` is 0 or the direct-map address of a 32-bit address. -/
structure AtBoot (map : List MemmapEntry) (ram : Set ℕ) (s : Kernel) : Prop where
  limine : LimineMap map
  room : HasRoom map
  distinct : Distinct s.mem s.root
  usable : ∀ p, InUsable map p → p ∈ ram
  tables : ∀ t, s.IsTable t → t ∈ ram ∧ ¬InUsable map t ∧
    t < 64 * (getBitmapLength map pageToQword).toNat
  aligned : s.gHhdmOffset.toNat % 4096 = 0
  higherHalf : 2 ^ 64 - 2 ^ 47 ≤ s.gHhdmOffset.toNat
  ioapic : s.ioapicBase = 0 ∨ (s.ioapicBase - s.gHhdmOffset).toNat < 2 ^ 32
  inside : ∀ p ∈ ram, s.gHhdmOffset.toNat + 4096 * p + 4096 ≤ 2 ^ 64
  direct : ∀ p ∈ ram, s.Direct p

/-- All that `init_bitmap_pmm` clears for the heap bitmap is usable memory apart from the page
bitmap. -/
def HeapBitmapApart (map : List MemmapEntry) (s : Kernel) : Prop :=
  ∀ p, (initBitmapPmm map s).HoldsHeapBitmap p →
    InUsable map p ∧ ¬(initBitmapPmm map s).HoldsBitmap p

section Start
variable {map : List MemmapEntry} {ram : Set ℕ} {s : Kernel} {p : ℕ}

/-- The bootloader's assurances are still good after `madt_parsing`. -/
theorem AtBoot.madtParsing (h : AtBoot map ram s) {rsdpPointer : Word} {n : ℕ} {t : Kernel}
    (ht : Acpi.madtParsing rsdpPointer n s = some t) : AtBoot map ram t := by
  rcases madtParsing_ioapicBase ht with rfl | ⟨a, rfl⟩
  · exact h
  · have hlow : (a.setWidth 64 + s.gHhdmOffset - s.gHhdmOffset).toNat < 2 ^ 32 := by
      rw [BitVec.add_sub_cancel, BitVec.toNat_setWidth]
      omega
    exact ⟨h.limine, h.room, h.distinct, h.usable, h.tables, h.aligned, h.higherHalf, Or.inr hlow,
      h.inside, h.direct⟩

theorem AtBoot.holdsBitmap_usable (h : AtBoot map ram s)
    (hp : (initBitmapPmm map s).HoldsBitmap p) : InUsable map p := by
  rw [initBitmapPmm_holdsBitmap] at hp
  exact (buildBitmap_placed h.limine h.room s).inUsable h.limine hp

theorem initBitmapPmm_root (map : List MemmapEntry) (s : Kernel) :
    (initBitmapPmm map s).root = s.root := by
  unfold Kernel.root
  rw [(initBitmapPmm_kept map s).2.1]

/-- The page tables are as the bootloader left them. -/
theorem AtBoot.table_mem (h : AtBoot map ram s) (hheap : HeapBitmapApart map s) {t : ℕ}
    (ht : s.IsTable t) {x : ℕ} (hx : x / 4096 = t) : (initBitmapPmm map s).mem x = s.mem x := by
  obtain ⟨-, hnot, -⟩ := h.tables t ht
  apply initBitmapPmm_outside h.limine h.room
  · rw [hx]
    exact fun hb => hnot (h.holdsBitmap_usable hb)
  · rw [hx]
    exact fun hb => hnot (hheap t hb).1

theorem AtBoot.walks (h : AtBoot map ram s) (hheap : HeapBitmapApart map s) :
    (∀ q, q.length ≤ 3 → tableAt (initBitmapPmm map s).mem (initBitmapPmm map s).root q =
      tableAt s.mem s.root q) ∧
    (∀ t, s.IsTable t → ∀ i, entry (initBitmapPmm map s).mem t i = entry s.mem t i) ∧
    ∀ v, walk (initBitmapPmm map s).mem (initBitmapPmm map s).root v = walk s.mem s.root v := by
  rw [initBitmapPmm_root]
  exact walk_congr fun t ht x hx => h.table_mem hheap ht hx

theorem AtBoot.isTable (h : AtBoot map ram s) (hheap : HeapBitmapApart map s) :
    (initBitmapPmm map s).IsTable p ↔ s.IsTable p := by
  apply exists_congr
  intro q
  apply and_congr_right
  intro hq
  rw [(h.walks hheap).1 q hq]

theorem AtBoot.noLarge (h : AtBoot map ram s) (hheap : HeapBitmapApart map s)
    {path : List (Fin 512)} (hsmall : NoLarge s.mem s.root path) :
    NoLarge (initBitmapPmm map s).mem (initBitmapPmm map s).root path := by
  obtain ⟨htables, hentry, -⟩ := h.walks hheap
  intro p i t hpre hlen htab hpresent
  rw [htables p (by omega)] at htab
  rw [hentry t ⟨p, by omega, htab⟩] at hpresent ⊢
  exact hsmall p i t hpre hlen htab hpresent

/-- The free pages are usable, and they are neither page 0 nor in the page bitmap. -/
theorem AtBoot.free_spec (h : AtBoot map ram s) (hheap : HeapBitmapApart map s)
    (hp : p < 64 * (initBitmapPmm map s).bitmapLength.toNat)
    (hfree : (initBitmapPmm map s).locked p = false) :
    InUsable map p ∧ p ≠ 0 ∧ ¬(initBitmapPmm map s).HoldsBitmap p := by
  rw [initBitmapPmm_bitmapLength] at hp
  rw [initBitmapPmm_holdsBitmap, ← buildBitmap_locked h.limine h.room s hp]
  by_contra hc
  have hlocked := initBitmapPmm_stays_locked h.limine h.room (fun q hq => (hheap q hq).2) hp
    (by simpa using hc)
  rw [hlocked] at hfree
  contradiction

theorem AtBoot.length_eq (h : AtBoot map ram s) :
    (initBitmapPmm map s).bitmapLength = getBitmapLength map pageToQword := by
  rw [initBitmapPmm_bitmapLength, (buildBitmap_placed h.limine h.room s).length_eq]

/-- The bootloader's tables are a tree that the page bitmap locks. -/
theorem AtBoot.tree (h : AtBoot map ram s) (hheap : HeapBitmapApart map s) :
    PageTree (initBitmapPmm map s) := by
  obtain ⟨htables, -, -⟩ := h.walks hheap
  constructor
  · intro p q t hp hq htp htq
    rw [htables p hp] at htp
    rw [htables q hq] at htq
    exact h.distinct p q t hp hq htp htq
  · intro t ht
    obtain ⟨-, hnot, hlt⟩ := h.tables t ((h.isTable hheap).mp ht)
    rw [← h.length_eq] at hlt
    refine ⟨hlt, ?_⟩
    by_contra hc
    exact hnot (h.free_spec hheap hlt (by simpa using hc)).1
  · intro t ht hb
    exact (h.tables t ((h.isTable hheap).mp ht)).2.1 (h.holdsBitmap_usable hb)

theorem AtBoot.pmm (h : AtBoot map ram s) (hheap : HeapBitmapApart map s) :
    PmmApart (initBitmapPmm map s) := by
  constructor
  · have hfits := (buildBitmap_placed h.limine h.room s).fits h.limine
    unfold Fits
    simp only [Kernel.bitmapPhys, initBitmapPmm, heapBitmapPointer]
    unfold Kernel.bitmapPhys at hfits
    omega
  · intro p hp hfree
    obtain ⟨husable, -, hnot⟩ := h.free_spec hheap hp hfree
    have hinside := h.inside p (h.usable p husable)
    have hhigh := h.higherHalf
    exact ⟨by omega, hnot⟩

/-- The mapping sequence starts as it should, if the heap bitmap does no harm. -/
theorem AtBoot.before (h : AtBoot map ram s) (hheap : HeapBitmapApart map s) :
    BeforeMapping ram (initBitmapPmm map s) := by
  obtain ⟨hhhdm, -, hioapic⟩ := initBitmapPmm_kept map s
  constructor
  · exact h.tree hheap
  · exact h.pmm hheap
  · rw [hhhdm]
    exact h.aligned
  · rw [hhhdm]
    exact h.higherHalf
  · rw [hhhdm, hioapic]
    exact h.ioapic
  · rw [hhhdm]
    exact h.inside
  · intro p hp
    have hsame : (initBitmapPmm map s).directMap p = s.directMap p := by
      rw [Kernel.directMap, Kernel.directMap, hhhdm]
    unfold Kernel.Direct translateAddr
    rw [hsame, (h.walks hheap).2.2]
    exact h.direct p hp
  · rintro p (hb | hb | ht)
    · exact h.usable p (h.holdsBitmap_usable hb)
    · exact h.usable p (hheap p hb).1
    · exact (h.tables p ((h.isTable hheap).mp ht)).1
  · intro p hp
    rw [mem_freePages] at hp
    have hsc := scanned_le (initBitmapPmm map s).bitmapLength
    exact h.usable p (h.free_spec hheap (by omega) hp.2).1

end Start

section Loader

/-- Tables of a bootloader in frames 261120 to 261634 that map 1 GiB with small pages. -/
def loaderEntry (t i : ℕ) : Word :=
  if t = 261120 then if i = 256 then tableEntry 261121 else 0
  else if t = 261121 then if i = 0 then tableEntry 261122 else 0
  else if t = 261122 then tableEntry (261123 + i)
  else if 261123 ≤ t ∧ t < 261635 then tableEntry (512 * (t - 261123) + i)
  else 0

/-- Memory that holds these tables. -/
def HoldsLoader (m : Memory) : Prop :=
  ∀ t, 261120 ≤ t → t < 261635 → ∀ i : Fin 512, entry m t i = loaderEntry t i

/-- The tables by their paths. -/
inductive LoaderTable : List (Fin 512) → ℕ → Prop
  | top : LoaderTable [] 261120
  | second : LoaderTable [256] 261121
  | third : LoaderTable [256, 0] 261122
  | last (j : Fin 512) : LoaderTable [256, 0, j] (261123 + j)

variable {m : Memory}

theorem child_tableEntry {t N : ℕ} {i : Fin 512} (hN : N < 2 ^ 40)
    (h : entry m t i = tableEntry N) : child m t i = some N := by
  obtain ⟨hframe, hpresent, hsmall⟩ := tableEntry_spec hN
  rw [child_eq_some, h]
  exact ⟨hpresent, hsmall, hframe⟩

theorem loaderEntry_large {t i : ℕ} (hi : i < 512) : large (loaderEntry t i) = false := by
  unfold loaderEntry
  split_ifs
  · exact (tableEntry_spec (by decide)).2.2
  · rfl
  · exact (tableEntry_spec (by decide)).2.2
  · rfl
  · exact (tableEntry_spec (by omega)).2.2
  · exact (tableEntry_spec (by omega)).2.2
  · rfl

theorem LoaderTable.range {p : List (Fin 512)} {t : ℕ} (h : LoaderTable p t) :
    261120 ≤ t ∧ t < 261635 := by
  cases h with
  | top => decide
  | second => decide
  | third => decide
  | last j => omega

theorem LoaderTable.unique {p q : List (Fin 512)} {t : ℕ} (hp : LoaderTable p t)
    (hq : LoaderTable q t) : p = q := by
  generalize hu : t = u at hq
  cases hp <;> cases hq <;> first | rfl | omega | skip
  rename_i i j
  rw [show i = j by omega]

/-- Every table of the hierarchy is one of the loader's. -/
theorem loader_table (h : HoldsLoader m) {p : List (Fin 512)} {t : ℕ} (hp : p.length ≤ 3)
    (ht : tableAt m 261120 p = some t) : LoaderTable p t := by
  induction p using List.reverseRecOn generalizing t with
  | nil =>
    rw [← Option.some.inj ht]
    exact .top
  | append_singleton p i ih =>
    rw [List.length_append, List.length_singleton] at hp
    rw [tableAt_snoc, Option.bind_eq_some_iff] at ht
    obtain ⟨u, hu, hchild⟩ := ht
    have htable := ih (by omega) hu
    obtain ⟨hpresent, -, hframe⟩ := child_eq_some.mp hchild
    rw [h u htable.range.1 htable.range.2] at hpresent hframe
    cases htable with
    | top =>
      rw [loaderEntry, if_pos rfl] at hpresent hframe
      split_ifs at hpresent hframe with hi
      · obtain rfl : i = 256 := Fin.ext hi
        rw [← hframe, (tableEntry_spec (by decide)).1]
        exact .second
      · contradiction
    | second =>
      rw [loaderEntry, if_neg (by decide), if_pos rfl] at hpresent hframe
      split_ifs at hpresent hframe with hi
      · obtain rfl : i = 0 := Fin.ext hi
        rw [← hframe, (tableEntry_spec (by decide)).1]
        exact .third
      · contradiction
    | third =>
      rw [loaderEntry, if_neg (by decide), if_neg (by decide), if_pos rfl] at hframe
      rw [← hframe, (tableEntry_spec (by omega)).1]
      exact .last i
    | last j =>
      simp only [List.length_cons, List.length_nil] at hp
      omega

theorem loader_noLarge (h : HoldsLoader m) (path : List (Fin 512)) : NoLarge m 261120 path := by
  intro p i t _ hp ht _
  obtain ⟨hlo, hhi⟩ := (loader_table h (by omega) ht).range
  rw [h t hlo hhi]
  exact loaderEntry_large i.isLt

theorem loader_distinct (h : HoldsLoader m) : Distinct m 261120 := fun _ _ _ hp hq htp htq =>
  (loader_table h hp htp).unique (loader_table h hq htq)

theorem loader_address {p : ℕ} (hp : p < 262144) :
    (0xFFFF800000000000 + BitVec.ofNat 64 p * 4096 : Word).toNat =
      0xFFFF800000000000 + 4096 * p := by
  have hstart : (0xFFFF800000000000 : Word).toNat = 0xFFFF800000000000 := rfl
  rw [BitVec.toNat_add, page_address_toNat (by omega), hstart]
  omega

/-- The loader's tables map the first GiB at 0xFFFF800000000000. -/
theorem loader_walk (h : HoldsLoader m) {p : ℕ} (hp : p < 262144) :
    walk m 261120 (0xFFFF800000000000 + BitVec.ofNat 64 p * 4096) = some ⟨0, tableEntry p⟩ := by
  have haddr := loader_address hp
  generalize (0xFFFF800000000000 + BitVec.ofNat 64 p * 4096 : Word) = v at haddr
  have h3 : index v 3 = 256 := by
    rw [Fin.ext_iff, index_val, haddr]
    change _ = 256
    omega
  have h2 : index v 2 = 0 := by
    rw [Fin.ext_iff, index_val, haddr]
    change _ = 0
    omega
  have h1 : (index v 1 : ℕ) = p / 512 := by
    rw [index_val, haddr]
    omega
  have h0 : (index v 0 : ℕ) = p % 512 := by
    rw [index_val, haddr]
    omega
  have htable : tableAt m 261120 [256, 0, index v 1] = some (261123 + p / 512) := by
    have hchild1 : child m 261120 256 = some 261121 := child_tableEntry (by decide) (by
      rw [h _ (by decide) (by decide)]
      rfl)
    have hchild2 : child m 261121 0 = some 261122 := child_tableEntry (by decide) (by
      rw [h _ (by decide) (by decide)]
      rfl)
    have hchild3 : child m 261122 (index v 1) = some (261123 + p / 512) :=
      child_tableEntry (by omega) (by
        rw [h _ (by decide) (by decide), h1]
        rfl)
    rw [tableAt_cons, hchild1, Option.bind_some, tableAt_cons, hchild2, Option.bind_some,
      tableAt_cons, hchild3]
    rfl
  have hentry : entry m (261123 + p / 512) (index v 0) = tableEntry p := by
    rw [h _ (by omega) (by omega), loaderEntry, if_neg (by omega), if_neg (by omega),
      if_neg (by omega), if_pos (by omega), h0]
    congr 1
    omega
  obtain ⟨-, hpresent, -⟩ := tableEntry_spec (N := p) (by omega)
  rw [walk, indices, h3, h2]
  rw [show [256, 0, index v 1, index v 0] = [256, 0, index v 1] ++ [index v 0] from rfl,
    walkFrom_append htable (by simp), walkFrom, hentry, if_pos hpresent]

theorem loader_direct (h : HoldsLoader m) {p : ℕ} (hp : p < 262144) :
    translateAddr m 261120 (0xFFFF800000000000 + BitVec.ofNat 64 p * 4096) = some (4096 * p) := by
  have hbytes : Leaf.bytes ⟨0, tableEntry p⟩ = 4096 := rfl
  have hframe := (tableEntry_spec (N := p) (by omega)).1
  rw [translateAddr, loader_walk h hp, Option.map_some, Leaf.address, hbytes, hframe,
    loader_address hp]
  congr 1
  omega

end Loader

section Machine

/-- A kernel at its entry point, with the direct map where the heap is going to be. -/
def loaderKernel : Kernel where
  mem := ofWords fun k => loaderEntry (k / 512) (k % 512)
  cr3 := 0x3FC00000
  gHhdmOffset := 0xFFFF800000000000
  bitmapLength := 0
  bitmap := 0
  heapBitmap := 0
  ioapicBase := 0xFFFF8000FEC00000

/-- A machine with 1 GiB of which `n` pages from page `b` on are usable and the last 4 MiB hold the
loader's tables. -/
def loaderMap (b n : ℕ) : List MemmapEntry :=
  [⟨BitVec.ofNat 64 (4096 * b), BitVec.ofNat 64 (4096 * n), 0⟩, ⟨0x3FC00000, 0x400000, 5⟩]

/-- There is room for the two bitmaps, and a page that `pmm_alloc2` looks at behind the first. -/
structure LoaderRange (b n : ℕ) : Prop where
  pos : 1 ≤ b
  scanned : b + 9 ≤ 4096
  room : 24 ≤ n
  below : b + n ≤ 261120

variable {b n p : ℕ}

theorem LoaderRange.toNat (h : LoaderRange b n) :
    (BitVec.ofNat 64 (4096 * b)).toNat = 4096 * b ∧
      (BitVec.ofNat 64 (4096 * n)).toNat = 4096 * n := by
  have := h.below
  rw [BitVec.toNat_ofNat, BitVec.toNat_ofNat]
  omega

theorem loaderMap_limine (h : LoaderRange b n) : LimineMap (loaderMap b n) := by
  obtain ⟨hbase, hlen⟩ := h.toNat
  have hroom := h.room
  have hbelow := h.below
  have hbase' : (0x3FC00000 : Word).toNat = 4096 * 261120 := rfl
  have hlen' : (0x400000 : Word).toNat = 4096 * 1024 := rfl
  constructor
  · simp only [loaderMap, List.mem_cons, List.not_mem_nil, or_false, forall_eq_or_imp, forall_eq]
    constructor
    · intro hzero
      rw [hzero] at hlen
      change 0 = 4096 * n at hlen
      omega
    · decide
  · simp only [loaderMap, List.mem_cons, List.not_mem_nil, or_false, forall_eq_or_imp, forall_eq]
    omega
  · simp only [loaderMap, List.mem_cons, List.not_mem_nil, or_false, forall_eq_or_imp, forall_eq]
    omega
  · simp only [loaderMap, List.pairwise_cons, List.mem_singleton, forall_eq, List.not_mem_nil,
      false_imp_iff, implies_true, List.Pairwise.nil, and_true]
    intro _
    omega

theorem loaderMap_length (h : LoaderRange b n) :
    getBitmapLength (loaderMap b n) pageToQword = 4096 := by
  obtain ⟨hbase, hlen⟩ := h.toNat
  have hbelow := h.below
  have hend : BitVec.ofNat 64 (4096 * b) + BitVec.ofNat 64 (4096 * n) ≤
      (0x3FC00000 + 0x400000 : Word) := by
    have htop : (0x3FC00000 + 0x400000 : Word).toNat = 4096 * 262144 := rfl
    rw [BitVec.le_def, htop, BitVec.toNat_add, hbase, hlen]
    omega
  have hzero (w : Word) : (0 : Word) ≤ w := BitVec.le_def.mpr (Nat.zero_le _)
  simp only [getBitmapLength, loaderMap, List.foldl_cons, List.foldl_nil, if_pos (hzero _),
    if_pos hend]
  decide

theorem loaderMap_hasRoom (h : LoaderRange b n) : HasRoom (loaderMap b n) := by
  have hlen := h.toNat.2
  have hroom := h.room
  have h4096 : (4096 : Word).toNat = 4096 := rfl
  refine ⟨_, List.mem_cons_self, rfl, ?_⟩
  rw [loaderMap_length h, h4096, hlen]
  omega

theorem loaderMap_usable (h : LoaderRange b n) :
    InUsable (loaderMap b n) p ↔ b ≤ p ∧ p < b + n := by
  obtain ⟨hbase, hlen⟩ := h.toNat
  constructor
  · rintro ⟨e, he, hu, h1, h2⟩
    simp only [loaderMap, List.mem_cons, List.not_mem_nil, or_false] at he
    rcases he with rfl | rfl
    · simp only [hbase, hlen] at h1 h2
      omega
    · exact absurd hu (by decide)
  · rintro ⟨h1, h2⟩
    refine ⟨_, List.mem_cons_self, rfl, ?_, ?_⟩
    · simp only [hbase]
      omega
    · simp only [hbase, hlen]
      omega

/-- The page bitmap takes the first eight usable pages. -/
theorem loaderMap_bitmap (h : LoaderRange b n) :
    (buildBitmap (loaderMap b n) loaderKernel).bitmapLength = 4096 ∧
      ∀ p, (buildBitmap (loaderMap b n) loaderKernel).HoldsBitmap p ↔ b ≤ p ∧ p < b + 8 := by
  have hlength := loaderMap_length h
  obtain ⟨hbase, hlen⟩ := h.toNat
  have hroom := h.room
  have h4096 : (4096 : Word).toNat = 4096 := rfl
  have hbytes : ((4096 : Word) * 8).toNat = 32768 := rfl
  have hfind : ((loaderMap b n).find? fun e => isEntryType limineMemmapUsable e &&
      decide ((4096 : Word) * 8 ≤ e.length)) =
        some ⟨BitVec.ofNat 64 (4096 * b), BitVec.ofNat 64 (4096 * n), 0⟩ := by
    have hfits : (4096 : Word) * 8 ≤ BitVec.ofNat 64 (4096 * n) := by
      rw [BitVec.le_def, hbytes, hlen]
      omega
    rw [loaderMap, List.find?_cons_of_pos]
    rw [decide_eq_true hfits, Bool.and_true]
    rfl
  have hsame : (buildBitmap (loaderMap b n) loaderKernel).bitmapLength = 4096 := by
    rw [buildBitmap_bitmapLength, hlength]
  have hphys : (buildBitmap (loaderMap b n) loaderKernel).bitmapPhys = 4096 * b := by
    simp only [buildBitmap, bitmapPointer, hlength, hfind, Kernel.bitmapPhys, phys_add_self]
    exact hbase
  refine ⟨hsame, fun p => ?_⟩
  rw [Kernel.HoldsBitmap, hphys, hsame, h4096]
  omega

theorem loaderMap_locked (h : LoaderRange b n) (hp : p < 262144) :
    (buildBitmap (loaderMap b n) loaderKernel).locked p = decide (p < b + 8 ∨ b + n ≤ p) := by
  obtain ⟨hlen, hholds⟩ := loaderMap_bitmap h
  have hpos := h.pos
  have hroom := h.room
  have h4096 : (4096 : Word).toNat = 4096 := rfl
  apply buildBitmap_locked_eq (loaderMap_limine h) (loaderMap_hasRoom h)
  · rw [hlen, h4096]
    omega
  · rw [hholds, loaderMap_usable h]
    omega

/-- The heap bitmap is cleared in the next sixteen, of which the first is locked. -/
theorem loaderMap_init (h : LoaderRange b n) :
    (∀ p, (initBitmapPmm (loaderMap b n) loaderKernel).HoldsHeapBitmap p ↔
      b + 8 ≤ p ∧ p < b + 24) ∧
    ∀ p < 262144, (initBitmapPmm (loaderMap b n) loaderKernel).locked p =
      decide (p < b + 9 ∨ b + n ≤ p) := by
  obtain ⟨hlen, hholds⟩ := loaderMap_bitmap h
  have hpos := h.pos
  have hscan := h.scanned
  have hroom := h.room
  have hbelow := h.below
  have h4096 : (4096 : Word).toNat = 4096 := rfl
  have hsc : scanned (4096 : Word) = 4096 := rfl
  have hfree := (loaderMap_locked h (show b + 8 < 262144 by omega)).trans
    (decide_eq_false (by omega))
  have hgot : heapBitmapFrame (loaderMap b n) loaderKernel ≠ 0 := by
    have h0 := (loaderMap_locked h (show 0 < 262144 by omega)).trans (decide_eq_true (by omega))
    apply (pmmAlloc2_ne_zero_iff h0 (by rw [hlen]; decide)).mpr
    exact ⟨b + 8, by rw [hlen, hsc]; omega, hfree⟩
  obtain ⟨f, hf, hclear, hset, hphys, hmem⟩ := heapBitmapFrame_spec (loaderMap_limine h)
    (loaderMap_hasRoom h) loaderKernel hgot
  rw [hlen, hsc] at hf
  obtain rfl : f = b + 8 := by
    rw [loaderMap_locked h (by omega), decide_eq_false_iff_not] at hclear
    by_contra hc
    rw [hset (b + 8) (by omega)] at hfree
    contradiction
  have hheap (p : ℕ) : (initBitmapPmm (loaderMap b n) loaderKernel).HoldsHeapBitmap p ↔
      b + 8 ≤ p ∧ p < b + 24 := by
    rw [Kernel.HoldsHeapBitmap, hphys]
    omega
  refine ⟨hheap, fun p hp => ?_⟩
  have hapart (q : ℕ) (hq : (initBitmapPmm (loaderMap b n) loaderKernel).HoldsHeapBitmap q) :
      ¬(initBitmapPmm (loaderMap b n) loaderKernel).HoldsBitmap q := by
    rw [hheap] at hq
    rw [initBitmapPmm_holdsBitmap, hholds]
    omega
  rw [initBitmapPmm_locked (loaderMap_limine h) (loaderMap_hasRoom h) hphys hmem (by omega) hapart
    (by rw [hlen, h4096]; omega) (by rw [hlen, h4096]; omega), loaderMap_locked h hp,
    ← Bool.decide_or]
  exact decide_eq_decide.mpr (by omega)

theorem loaderMap_apart (h : LoaderRange b n) : HeapBitmapApart (loaderMap b n) loaderKernel := by
  intro p hp
  have hroom := h.room
  rw [(loaderMap_init h).1] at hp
  rw [loaderMap_usable h, initBitmapPmm_holdsBitmap, (loaderMap_bitmap h).2]
  omega

theorem loaderKernel_holds : HoldsLoader loaderKernel.mem := by
  intro t _ _ i
  rw [loaderKernel, entry_ofWords, show (512 * t + i) / 512 = t by omega,
    show (512 * t + i) % 512 = i by omega]

theorem loaderEntry_toNat {t i : ℕ} (hi : i < 512) : (loaderEntry t i).toNat = 0 ∨
    ∃ N < 2 ^ 18, (loaderEntry t i).toNat = 4096 * N + 3 := by
  unfold loaderEntry
  split_ifs
  · exact .inr ⟨_, by decide, tableEntry_toNat (by decide)⟩
  · exact .inl rfl
  · exact .inr ⟨_, by decide, tableEntry_toNat (by decide)⟩
  · exact .inl rfl
  · exact .inr ⟨_, by omega, tableEntry_toNat (by omega)⟩
  · exact .inr ⟨_, by omega, tableEntry_toNat (by omega)⟩
  · exact .inl rfl

/-- No byte of "APIC" is at an address that is a multiple of 4. -/
theorem loaderKernel_byte {x : ℕ} (hx : x % 4 = 0) : loaderKernel.mem x ∉ apicSignature := by
  have hbyte : (loaderKernel.mem x).toNat =
      (loaderEntry (x / 8 / 512) (x / 8 % 512)).toNat / 2 ^ (8 * (x % 8)) % 256 := by
    change ((loaderEntry (x / 8 / 512) (x / 8 % 512)).extractLsb' (8 * (x % 8)) 8).toNat = _
    rw [BitVec.extractLsb'_toNat, Nat.shiftRight_eq_div_pow]
  have hentry := loaderEntry_toNat (t := x / 8 / 512) (show x / 8 % 512 < 512 by omega)
  have hsmall : (loaderKernel.mem x).toNat ≤ 3 := by
    obtain hj | hj : x % 8 = 0 ∨ x % 8 = 4 := by omega
    all_goals
      rw [hbyte, hj]
      rcases hentry with h | ⟨N, hN, h⟩ <;> omega
  have hbig : ∀ c ∈ apicSignature, 3 < c.toNat := by decide
  intro hc
  have := hbig _ hc
  omega

/-- No MADT is found in this memory. -/
theorem loaderKernel_noMadt (rsdpPointer : Word) : theMadt loaderKernel rsdpPointer = 0 := by
  have hnone (h : Word) : signature loaderKernel h ≠ apicSignature := by
    intro hsig
    have hhhdm : loaderKernel.gHhdmOffset.toNat = 0xFFFF800000000000 := rfl
    obtain ⟨i, hi, halign⟩ : ∃ i < 4,
        phys loaderKernel.gHhdmOffset (h + BitVec.ofNat 64 i) % 4 = 0 := by
      refine ⟨(4 - h.toNat % 4) % 4, by omega, ?_⟩
      rw [phys, BitVec.toNat_sub, BitVec.toNat_add, BitVec.toNat_ofNat, hhhdm]
      omega
    refine loaderKernel_byte halign ?_
    rw [← hsig]
    exact List.mem_map_of_mem (List.mem_range.mpr hi)
  rw [theMadt, findAPIC, findAPICFrom_eq, List.find?_eq_none.mpr, Option.getD_none]
  intro h _
  exact decide_eq_true_iff.not.mpr (hnone h)

/-- The memory of the machine is the pages from `b` on. -/
theorem loader_atBoot (h : LoaderRange b n) :
    AtBoot (loaderMap b n) {p | b ≤ p ∧ p < 262144} loaderKernel := by
  have hroot : loaderKernel.root = 261120 := by decide
  have hhhdm : loaderKernel.gHhdmOffset.toNat = 0xFFFF800000000000 := rfl
  have hbelow := h.below
  have h4096 : (4096 : Word).toNat = 4096 := rfl
  constructor
  · exact loaderMap_limine h
  · exact loaderMap_hasRoom h
  · rw [hroot]
    exact loader_distinct loaderKernel_holds
  · intro p hp
    rw [loaderMap_usable h] at hp
    exact ⟨by omega, by omega⟩
  · rintro t ⟨p, hlen, ht⟩
    rw [hroot] at ht
    have hrange := (loader_table loaderKernel_holds hlen ht).range
    rw [loaderMap_usable h, loaderMap_length h, h4096]
    exact ⟨⟨by omega, by omega⟩, by omega, by omega⟩
  · rw [hhhdm]
  · rw [hhhdm]
    decide
  · right
    decide
  · rintro p ⟨-, hp⟩
    rw [hhhdm]
    omega
  · rintro p ⟨-, hp⟩
    rw [Kernel.Direct, Kernel.directMap, hroot]
    exact loader_direct loaderKernel_holds hp

/-- What `init_bitmap_pmm` leaves of the machine has no large pages. -/
theorem loader_init_noLarge (h : LoaderRange b n) (path : List (Fin 512)) :
    NoLarge (initBitmapPmm (loaderMap b n) loaderKernel).mem
      (initBitmapPmm (loaderMap b n) loaderKernel).root path := by
  apply (loader_atBoot h).noLarge (loaderMap_apart h)
  exact loader_noLarge loaderKernel_holds path

/-- `pmm_alloc2` finds the usable pages below 16 MiB. -/
theorem loader_init_supplied (h : LoaderRange b n) {k : ℕ} (hk : b + 9 + k ≤ 4096)
    (hkn : 9 + k ≤ n) : Supplied (initBitmapPmm (loaderMap b n) loaderKernel) k := by
  obtain ⟨hlen, -⟩ := loaderMap_bitmap h
  rw [← initBitmapPmm_bitmapLength] at hlen
  have hlocked := (loaderMap_init h).2
  have hpos := h.pos
  have hsc : scanned (4096 : Word) = 4096 := rfl
  constructor
  · rw [hlocked 0 (by omega)]
    exact decide_eq_true (by omega)
  · rw [hlen]
    decide
  · rw [hlen]
    decide
  · refine ⟨Finset.Ico (b + 9) (b + 9 + k), by simp, fun p hp => ?_⟩
    rw [Finset.mem_Ico] at hp
    rw [hlen, hsc, hlocked p (by omega)]
    exact ⟨by omega, decide_eq_false (by omega)⟩

end Machine

end LucidiOS.Boot
