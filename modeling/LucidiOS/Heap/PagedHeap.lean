import LucidiOS.Heap.Backing
import LucidiOS.Vmm.DirectMap

/-! The heap in physical memory: the bitmap behind its direct-map pointer, and the blocks where the
page tables lead. `init_bitmap_pmm` obtains one page for the bitmap, so only the blocks that have
their bits in it are considered. -/
namespace LucidiOS
open ByteMemory Paging Pmm Vmm

/-- The array at the static pointer `heap_bitmap`. -/
def Kernel.heapWords (s : Kernel) : WordArray Memory := pointerArray s.gHhdmOffset s.heapBitmap

namespace Heap

/-- `kmalloc` in memory; nothing if the header is not mapped. -/
def kmallocIn (amount : Word) (s : Kernel) : Option (Word × Kernel) :=
  let blocks := blocksFor amount
  match FirstFit.scan
      (fun i => decide (s.heapWords.get s.mem (i / 64) &&& (1#64 <<< (i % 64)) = 0))
      blocks.toNat heapMaxBlocks 0 0 0 with
  | some startBit =>
      let mem := (List.range blocks.toNat).foldl
        (fun m k => pmmLockPage s.heapWords (BitVec.ofNat 64 (startBit + k)) m) s.mem
      let virtAddr := heapVirtStart + BitVec.ofNat 64 startBit * blockSize
      (translateAddr mem s.root virtAddr).map fun p =>
        (virtAddr + blockSize, { s with mem := store64 mem p blocks })
  | none => some (0, s)

/-- `kfree` in memory; nothing if the header is not mapped. -/
def kfreeIn (p : Word) (s : Kernel) : Option Kernel :=
  if p = 0 then some s
  else
    let virtAddr := p - blockSize
    (translateAddr s.mem s.root virtAddr).map fun header =>
      let blocksFree := load64 s.mem header
      let bitIdx := (virtAddr - heapVirtStart) / blockSize
      let mem := (List.range blocksFree.toNat).foldl
        (fun m i => pmmFreePage s.heapWords (bitIdx + BitVec.ofNat 64 i) m) s.mem
      { s with mem }

/-- A client stores a byte; nothing if the address is not mapped. -/
def storeIn (v : Word) (b : BitVec 8) (s : Kernel) : Option Kernel :=
  (translateAddr s.mem s.root v).map fun p => { s with mem := Function.update s.mem p b }

/-- The frame that `heap_bitmap_pointer` obtained, and those of the heap's pages. -/
structure Place where
  bitmap : ℕ
  frame : ℕ → ℕ

namespace Place

def frames (l : Place) : Set ℕ := {p | p = l.bitmap ∨ ∃ i < heapPages, p = l.frame i}

/-- Where byte `o` of the heap is. -/
def address (l : Place) (o : ℕ) : ℕ := 4096 * l.frame (o / 4096) + o % 4096

theorem address_page (l : Place) (o : ℕ) : l.address o / 4096 = l.frame (o / 4096) := by
  unfold address
  omega

end Place

/-- The heap lies at `l`, in frames of its own. -/
structure Placed (l : Place) (s : Kernel) : Prop where
  bitmap : s.heapBitmapPhys = 4096 * l.bitmap
  low : l.bitmap < 2 ^ 40
  translate : ∀ v : Word, ∀ o < 4096 * heapPages, v.toNat = heapVirtStart.toNat + o →
    translateAddr s.mem s.root v = some (l.address o)
  injective : ∀ i < heapPages, ∀ j < heapPages, l.frame i = l.frame j → i = j
  apart : ∀ i < heapPages, l.frame i ≠ l.bitmap
  noTable : ∀ p ∈ l.frames, ¬s.IsTable p

/-- The blocks that have their bits in the first page of the bitmap. -/
def firstBlocks : ℕ := 8 * 4096

/-- The memory of `s` holds the first blocks of the heap `h`. -/
structure Stores (l : Place) (s : Kernel) (h : KernelHeap) : Prop where
  bits : ∀ q < firstBlocks, s.heapWords.bit s.mem q = h.used q
  bytes : ∀ o < 16 * firstBlocks, s.mem (l.address o) = h.window (heapVirtStart.toNat + o)

section Memory
variable {l : Place} {s : Kernel} {m m' : Memory} {h : KernelHeap}

theorem Placed.fits (hp : Placed l s) : phys s.gHhdmOffset s.heapBitmap + 8 * 512 ≤ 2 ^ 64 := by
  have hbitmap := hp.bitmap
  have hlow := hp.low
  unfold Kernel.heapBitmapPhys at hbitmap
  omega

theorem Placed.lawful (hp : Placed l s) : s.heapWords.Lawful 512 := pointerArray_lawful hp.fits

theorem Placed.bit_congr (hp : Placed l s) (hm : ∀ x, x / 4096 = l.bitmap → m' x = m x) {q : ℕ}
    (hq : q < firstBlocks) : s.heapWords.bit m' q = s.heapWords.bit m q := by
  have hbitmap := hp.bitmap
  unfold Kernel.heapBitmapPhys at hbitmap
  unfold firstBlocks at hq
  have hget : s.heapWords.get m' (q / 64) = s.heapWords.get m (q / 64) :=
    pointerArray_get_congr hp.fits (by omega) fun x h1 h2 => hm x (by omega)
  rw [WordArray.bit, WordArray.bit, hget]

theorem Placed.set_outside (hp : Placed l s) (m : Memory) {i x : ℕ} (hi : i < 512) (w : Word)
    (hx : x / 4096 ≠ l.bitmap) : s.heapWords.set m i w x = m x := by
  have hbitmap := hp.bitmap
  unfold Kernel.heapBitmapPhys at hbitmap
  exact pointerArray_set_outside m w hp.fits hi (by omega)

theorem Placed.address_apart (hp : Placed l s) {o : ℕ} (ho : o < 4096 * heapPages) :
    l.address o / 4096 ≠ l.bitmap := by
  rw [l.address_page]
  exact hp.apart _ (by omega)

theorem Placed.address_mem {o : ℕ} (ho : o < 4096 * heapPages) :
    l.address o / 4096 ∈ l.frames :=
  Or.inr ⟨o / 4096, by omega, l.address_page o⟩

theorem Placed.address_injective (hp : Placed l s) {o o' : ℕ} (ho : o < 4096 * heapPages)
    (ho' : o' < 4096 * heapPages) (heq : l.address o = l.address o') : o = o' := by
  have hpage := congrArg (· / 4096) heq
  simp only [l.address_page] at hpage
  have hindex := hp.injective _ (by omega) _ (by omega) hpage
  unfold Place.address at heq
  rw [hindex] at heq
  omega

/-- Stores to the frames of the heap change no translation. -/
theorem Placed.walks (hp : Placed l s) (hm : ∀ x, x / 4096 ∉ l.frames → m x = s.mem x) :
    (∀ p, p.length ≤ 3 → tableAt m s.root p = tableAt s.mem s.root p) ∧
    (∀ t, s.IsTable t → ∀ i, entry m t i = entry s.mem t i) ∧
    ∀ v, walk m s.root v = walk s.mem s.root v :=
  walk_congr fun _ ht x hx => hm x fun hc => hp.noTable _ hc (hx ▸ ht)

theorem Placed.translate_congr (hp : Placed l s) (hm : ∀ x, x / 4096 ∉ l.frames → m x = s.mem x)
    (v : Word) : translateAddr m s.root v = translateAddr s.mem s.root v := by
  rw [translateAddr, translateAddr, (hp.walks hm).2.2]

theorem Placed.isTable_congr (hp : Placed l s) (hm : ∀ x, x / 4096 ∉ l.frames → m x = s.mem x)
    (t : ℕ) : ({ s with mem := m } : Kernel).IsTable t ↔ s.IsTable t :=
  exists_congr fun p => and_congr_right fun hlen => by rw [← (hp.walks hm).1 p hlen]; rfl

theorem Placed.congr (hp : Placed l s) (hm : ∀ x, x / 4096 ∉ l.frames → m x = s.mem x) :
    Placed l { s with mem := m } where
  bitmap := hp.bitmap
  low := hp.low
  translate v o ho hv := (hp.translate_congr hm v).trans (hp.translate v o ho hv)
  injective := hp.injective
  apart := hp.apart
  noTable p hmem := (hp.isTable_congr hm p).not.mpr (hp.noTable p hmem)

theorem firstBlocks_le : 16 * firstBlocks ≤ 4096 * heapPages := by decide

theorem Place.address_add (l : Place) (k : ℕ) {j : ℕ} (hj : j < 16) :
    l.address (16 * k + j) = l.address (16 * k) + j := by
  have hpage : (16 * k + j) / 4096 = 16 * k / 4096 := by omega
  unfold Place.address
  rw [hpage]
  omega

/-- A header is where the tables lead, in one piece. -/
theorem Placed.header_iff (hp : Placed l s) {k o : ℕ} (hk : k < firstBlocks)
    (ho : o < 16 * firstBlocks) :
    (l.address (16 * k) ≤ l.address o ∧ l.address o < l.address (16 * k) + 8) ↔
      16 * k ≤ o ∧ o < 16 * k + 8 := by
  have hle := firstBlocks_le
  constructor
  · rintro ⟨h1, h2⟩
    have heq : l.address o = l.address (16 * k + (l.address o - l.address (16 * k))) := by
      rw [l.address_add k (by omega)]
      omega
    have := hp.address_injective (by omega) (by omega) heq
    omega
  · rintro ⟨h1, h2⟩
    have := l.address_add k (show o - 16 * k < 16 by omega)
    rw [show 16 * k + (o - 16 * k) = o by omega] at this
    omega

theorem Placed.store_header (hp : Placed l s) {k o : ℕ} (hk : k < firstBlocks)
    (ho : o < 16 * firstBlocks) (w : Word) {window : Memory} {a : ℕ}
    (hsame : m (l.address o) = window (a + o)) :
    store64 m (l.address (16 * k)) w (l.address o) = store64 window (a + 16 * k) w (a + o) := by
  have hiff := hp.header_iff hk ho
  by_cases hin : 16 * k ≤ o ∧ o < 16 * k + 8
  · have := l.address_add k (show o - 16 * k < 16 by omega)
    rw [show 16 * k + (o - 16 * k) = o by omega] at this
    have hoffset : l.address o - l.address (16 * k) = a + o - (a + 16 * k) := by omega
    rw [store64, store64, if_pos (hiff.mpr hin), if_pos (by omega), hoffset]
  · rw [store64, store64, if_neg (hiff.not.mpr hin), if_neg (by omega), hsame]

theorem Stores.load_header (hs : Stores l s h) {k : ℕ} (hk : k < firstBlocks) :
    load64 s.mem (l.address (16 * k)) = load64 h.window (heapVirtStart.toNat + 16 * k) := by
  refine load64_moved fun j hj => ?_
  have hbyte := hs.bytes (16 * k + j) (by omega)
  rwa [l.address_add k (by omega), ← Nat.add_assoc] at hbyte

/-- A header lies in one frame. -/
theorem Placed.header_outside (hp : Placed l s) {k x : ℕ} (hk : k < firstBlocks) (w : Word)
    (hx : x / 4096 = l.bitmap ∨ x / 4096 ∉ l.frames) :
    store64 m (l.address (16 * k)) w x = m x := by
  have hle := firstBlocks_le
  apply store64_outside
  by_contra hc
  have hxk : x = l.address (16 * k + (x - l.address (16 * k))) := by
    rw [l.address_add k (by omega)]
    omega
  have ho : 16 * k + (x - l.address (16 * k)) < 4096 * heapPages := by omega
  rcases hx with hx | hx
  · rw [hxk] at hx
    exact hp.address_apart ho hx
  · rw [hxk] at hx
    exact hx (Placed.address_mem ho)

/-- The bits of a run after its blocks were marked. -/
theorem Placed.lock_run (hp : Placed l s) {start n : ℕ} (hn : start + n ≤ firstBlocks)
    (m : Memory) :
    let m' := (List.range n).foldl
      (fun m k => pmmLockPage s.heapWords (BitVec.ofNat 64 (start + k)) m) m
    (∀ q < firstBlocks, s.heapWords.bit m' q =
      (s.heapWords.bit m q || decide (start ≤ q ∧ q < start + n))) ∧
    ∀ x, x / 4096 ≠ l.bitmap → m' x = m x := by
  unfold firstBlocks at hn ⊢
  have hfold : (List.range n).foldl
      (fun m k => pmmLockPage s.heapWords (BitVec.ofNat 64 (start + k)) m) m =
      ((List.range n).map (start + ·)).foldl (fun m p => s.heapWords.setBit p m) m := by
    rw [List.foldl_map]
    refine List.foldl_ext _ _ _ fun m k hk => ?_
    rw [List.mem_range] at hk
    rw [pmmLockPage_eq, BitVec.toNat_ofNat, Nat.mod_eq_of_lt (by omega)]
  have hps : ∀ p ∈ (List.range n).map (start + ·), start ≤ p ∧ p < start + n := by
    intro p hp
    obtain ⟨k, hk, rfl⟩ := List.mem_map.mp hp
    rw [List.mem_range] at hk
    omega
  simp only [hfold]
  refine ⟨fun q hq => ?_, fun x hx => ?_⟩
  · rw [WordArray.bit_foldl_setBit hp.lawful _ _ (fun p hmem => by have := hps p hmem; omega)
      (by omega)]
    congr 1
    rw [decide_eq_decide]
    refine ⟨hps q, fun hq => List.mem_map.mpr ⟨q - start, List.mem_range.mpr (by omega), ?_⟩⟩
    omega
  · refine foldl_outside (fun m p hmem => hp.set_outside m ?_ _ hx) m
    have := hps p hmem
    omega

theorem Placed.free_run (hp : Placed l s) {start n : ℕ} (hn : start + n ≤ firstBlocks)
    {bitIdx : Word} (hstart : bitIdx.toNat = start) (m : Memory) :
    let m' := (List.range n).foldl
      (fun m i => pmmFreePage s.heapWords (bitIdx + BitVec.ofNat 64 i) m) m
    (∀ q < firstBlocks, s.heapWords.bit m' q =
      (s.heapWords.bit m q && !decide (start ≤ q ∧ q < start + n))) ∧
    ∀ x, x / 4096 ≠ l.bitmap → m' x = m x := by
  unfold firstBlocks at hn ⊢
  have hfold : (List.range n).foldl
      (fun m i => pmmFreePage s.heapWords (bitIdx + BitVec.ofNat 64 i) m) m =
      ((List.range n).map (start + ·)).foldl (fun m p => s.heapWords.clearBit p m) m := by
    rw [List.foldl_map]
    refine List.foldl_ext _ _ _ fun m k hk => ?_
    rw [List.mem_range] at hk
    rw [pmmFreePage_eq, BitVec.toNat_add, hstart, BitVec.toNat_ofNat,
      Nat.mod_eq_of_lt (show k < 2 ^ 64 by omega), Nat.mod_eq_of_lt (by omega)]
  have hps : ∀ p ∈ (List.range n).map (start + ·), start ≤ p ∧ p < start + n := by
    intro p hp
    obtain ⟨k, hk, rfl⟩ := List.mem_map.mp hp
    rw [List.mem_range] at hk
    omega
  simp only [hfold]
  refine ⟨fun q hq => ?_, fun x hx => ?_⟩
  · rw [WordArray.bit_foldl_clearBit hp.lawful _ _ (fun p hmem => by have := hps p hmem; omega)
      (by omega)]
    congr 2
    rw [decide_eq_decide]
    refine ⟨hps q, fun hq => List.mem_map.mpr ⟨q - start, List.mem_range.mpr (by omega), ?_⟩⟩
    omega
  · refine foldl_outside (fun m p hmem => hp.set_outside m ?_ _ hx) m
    have := hps p hmem
    omega

theorem clear_eq_bit (A : WordArray Memory) (m : Memory) :
    (fun i => decide (A.get m (i / 64) &&& (1#64 <<< (i % 64)) = 0)) = fun q => !A.bit m q := by
  funext q
  rw [decide_eq_decide.mpr (and_shift_eq_zero _ (Nat.mod_lt q (by decide : 0 < 64)))]
  change decide (A.bit m q = false) = !A.bit m q
  cases A.bit m q <;> rfl

/-- A request that has room among the first blocks is served as on the heap `h`. -/
theorem kmallocIn_refines (hp : Placed l s) (hs : Stores l s h) {amount : Word} {start : ℕ}
    (hroom : start + (blocksFor amount).toNat ≤ firstBlocks)
    (hfree : FirstFit.freeRun (fun q => !s.heapWords.bit s.mem q) start
      (blocksFor amount).toNat = true) :
    ∃ k m, k + (blocksFor amount).toNat ≤ firstBlocks ∧
      FirstFit.firstFit (fun q => !h.used q) (blocksFor amount).toNat heapMaxBlocks = some k ∧
      kmallocIn amount s = some ((kmalloc amount h).1, { s with mem := m }) ∧
      (∀ x, x / 4096 ∉ l.frames → m x = s.mem x) ∧
      Stores l { s with mem := m } (kmalloc amount h).2 := by
  obtain ⟨k, hk, hfit, hfit'⟩ := FirstFit.firstFit_prefix (fun q => !h.used q)
    (n := heapMaxBlocks) (by decide) (fun i hi => by rw [hs.bits i hi]) hroom hfree
  have hpos := blocksFor_pos amount
  have hend : k + (blocksFor amount).toNat ≤ firstBlocks := by omega
  have hkfirst : k < firstBlocks := by omega
  have hmax : k ≤ heapMaxBlocks := by
    unfold firstBlocks at hkfirst
    unfold heapMaxBlocks
    omega
  have hle := firstBlocks_le
  obtain ⟨hbits, hout⟩ := hp.lock_run hend s.mem
  obtain ⟨hptr, hwindow, hused⟩ := kmalloc_some hfit'
  generalize hm : (List.range (blocksFor amount).toNat).foldl
    (fun m j => pmmLockPage s.heapWords (BitVec.ofNat 64 (k + j)) m) s.mem = m at hbits hout
  have hmem (x : ℕ) (hx : x / 4096 ∉ l.frames) : m x = s.mem x :=
    hout x fun hc => hx (Or.inl hc)
  have htranslate : translateAddr m s.root (blockAddress k) = some (l.address (16 * k)) := by
    rw [hp.translate_congr hmem]
    exact hp.translate _ _ (by omega) (blockAddress_toNat hmax)
  refine ⟨k, store64 m (l.address (16 * k)) (blocksFor amount), hend, hfit', ?_, ?_, ?_, ?_⟩
  · rw [kmallocIn, clear_eq_bit, FirstFit.scan_eq_firstFit hpos, hfit, hptr]
    simp only [hm]
    rw [← blockAddress, htranslate, Option.map_some]
  · intro x hx
    rw [hp.header_outside hkfirst _ (Or.inr hx), hmem x hx]
  · intro q hq
    change s.heapWords.bit _ q = _
    rw [hp.bit_congr (fun x hx => hp.header_outside hkfirst _ (Or.inl hx)) hq, hbits q hq, hused q,
      hs.bits q hq]
  · intro o ho
    rw [hwindow, blockAddress_toNat hmax]
    apply hp.store_header hkfirst ho
    rw [hout _ (hp.address_apart (by omega)), hs.bytes o ho]

/-- A live allocation among the first blocks is freed as on the heap `h`. -/
theorem kfreeIn_refines (hp : Placed l s) (hs : Stores l s h) {a : Allocation} (ha : a.Intact h)
    (hend : a.start + a.blocks.toNat ≤ firstBlocks) :
    ∃ m, kfreeIn a.pointer s = some { s with mem := m } ∧
      (∀ x, x / 4096 ∉ l.frames → m x = s.mem x) ∧
      Stores l { s with mem := m } (kfree a.pointer h) := by
  have hpos := ha.nonempty
  have hmax : a.start ≤ heapMaxBlocks := by
    have := ha.inside
    omega
  have hle := firstBlocks_le
  have hfirst : a.start < firstBlocks := by omega
  have hne : a.pointer ≠ 0 := ha.pointer_eq ▸ blockAddress_add_ne_zero hmax
  have hvirt : a.pointer - blockSize = blockAddress a.start := ha.header_eq
  have htranslate : translateAddr s.mem s.root (blockAddress a.start) =
      some (l.address (16 * a.start)) := hp.translate _ _ (by omega) (blockAddress_toNat hmax)
  have hheader : load64 s.mem (l.address (16 * a.start)) = a.blocks := by
    rw [hs.load_header hfirst, ← blockAddress_toNat hmax, ← ha.header_eq]
    exact ha.header
  obtain ⟨hbits, hout⟩ := hp.free_run hend (blockAddress_index hmax) s.mem
  obtain ⟨hwindow, hused⟩ := kfree_used ha.inside (ha.header_eq ▸ ha.header)
  rw [← ha.pointer_eq] at hwindow hused
  refine ⟨_, ?_, fun x hx => hout x fun hc => hx (Or.inl hc), fun q hq => ?_, fun o ho => ?_⟩
  · rw [kfreeIn, if_neg hne]
    simp only [hvirt, htranslate, Option.map_some, hheader]
  · exact (hbits q hq).trans ((hs.bits q hq ▸ hused q).symm)
  · rw [hwindow]
    exact (hout _ (hp.address_apart (by omega))).trans (hs.bytes o ho)

/-- A store to a byte of the first blocks is one to the window of `h`. -/
theorem storeIn_refines (hp : Placed l s) (hs : Stores l s h) {o : ℕ} (ho : o < 16 * firstBlocks)
    {v : Word} (hv : v.toNat = heapVirtStart.toNat + o) (b : BitVec 8) :
    storeIn v b s = some { s with mem := Function.update s.mem (l.address o) b } ∧
      (∀ x, x / 4096 ∉ l.frames → Function.update s.mem (l.address o) b x = s.mem x) ∧
      Stores l { s with mem := Function.update s.mem (l.address o) b }
        { h with window := Function.update h.window (heapVirtStart.toNat + o) b } := by
  have hle := firstBlocks_le
  have hother {x : ℕ} (hx : x ≠ l.address o) : Function.update s.mem (l.address o) b x = s.mem x :=
    Function.update_of_ne hx _ _
  refine ⟨?_, fun x hx => hother ?_, fun q hq => ?_, fun o' ho' => ?_⟩
  · rw [storeIn, hp.translate v o (by omega) hv, Option.map_some]
  · rintro rfl
    exact hx (Placed.address_mem (by omega))
  · refine (hp.bit_congr (fun x hx => hother ?_) hq).trans (hs.bits q hq)
    rintro rfl
    exact hp.address_apart (by omega) hx
  · change Function.update s.mem _ b _ = Function.update h.window _ b _
    by_cases heq : o' = o
    · rw [heq, Function.update_self, Function.update_self]
    · rw [hother fun hc => heq (hp.address_injective (by omega) (by omega) hc),
        Function.update_of_ne (by omega), hs.bytes o' ho']

end Memory
end Heap
end LucidiOS
