import LucidiOS.Paging.Entries

/-! The translation caches of a processor: translations of pages, and tables on the way to them.
Nothing is cached for an entry that is not present. -/
namespace Paging
open ByteMemory

structure Caches where
  pages : ℕ → Option Leaf
  tables : List (Fin 512) → Option ℕ

namespace Caches

/-- A walk begins at the root or at a cached table. -/
def Begins (c : Caches) (root : ℕ) (p : List (Fin 512)) (t : ℕ) : Prop :=
  (p = [] ∧ t = root) ∨ c.tables p = some t

/-- What the processor does to its caches on its own. -/
inductive Moves (m : Memory) (root : ℕ) : Caches → Caches → Prop
  | page {c : Caches} {v : BitVec 64} {p rest : List (Fin 512)} {t : ℕ} {l : Leaf}
      (begins : c.Begins root p t) (path : indices v = p ++ rest) (nonempty : rest ≠ [])
      (found : walkFrom m t rest = some l) :
      Moves m root c { c with pages := Function.update c.pages (pageNumber v) (some l) }
  | table {c : Caches} {p : List (Fin 512)} {i : Fin 512} {t u : ℕ} (begins : c.Begins root p t)
      (short : p.length ≤ 2) (found : child m t i = some u) :
      Moves m root c { c with tables := Function.update c.tables (p ++ [i]) (some u) }
  | evictPage {c : Caches} (n : ℕ) :
      Moves m root c { c with pages := Function.update c.pages n none }
  | evictTable {c : Caches} (p : List (Fin 512)) :
      Moves m root c { c with tables := Function.update c.tables p none }

/-- The translations that the processor may use for `v`. -/
inductive Uses (m : Memory) (root : ℕ) (c : Caches) (v : BitVec 64) : Option Leaf → Prop
  | hit {l : Leaf} (cached : c.pages (pageNumber v) = some l) : Uses m root c v (some l)
  | miss {p rest : List (Fin 512)} {t : ℕ} (begins : c.Begins root p t)
      (path : indices v = p ++ rest) (nonempty : rest ≠ []) : Uses m root c v (walkFrom m t rest)

/-- The instruction drops the translation of one page and all cached tables. -/
def invlpg (c : Caches) (v : BitVec 64) : Caches where
  pages := Function.update c.pages (pageNumber v) none
  tables _ := none

/-- Cached tables are those of `m`; cached translations are those of `m`, or still those of an
earlier memory `m₀`. -/
structure Coherent (m₀ m : Memory) (root : ℕ) (c : Caches) : Prop where
  pages : ∀ v l, c.pages (pageNumber v) = some l →
    walk m root v = some l ∨ walk m₀ root v = some l
  tables : ∀ p t, c.tables p = some t → p.length ≤ 3 ∧ tableAt m root p = some t

/-- Every table of `m` is where it was. -/
def TablesKept (m m' : Memory) (root : ℕ) : Prop :=
  ∀ p t, p.length ≤ 3 → tableAt m root p = some t → tableAt m' root p = some t

/-- A change of memory that keeps every table and every walk. -/
structure Quiet (m m' : Memory) (root : ℕ) : Prop where
  tables : TablesKept m m' root
  walks : ∀ v, walk m' root v = walk m root v

def empty : Caches where
  pages _ := none
  tables _ := none

section Coherence
variable {m m' m₀ : Memory} {root : ℕ} {c c' : Caches} {v : BitVec 64}

theorem empty_coherent (m₀ m : Memory) (root : ℕ) : Coherent m₀ m root empty :=
  ⟨fun _ _ h => by simp [empty] at h, fun _ _ h => by simp [empty] at h⟩

theorem walk_congr_page {w : BitVec 64} (h : pageNumber v = pageNumber w) :
    walk m root v = walk m root w := by rw [walk, walk, indices_eq_iff.mpr h]

/-- A walk that begins at a cached table is the whole walk. -/
theorem Coherent.walk_eq (h : Coherent m₀ m root c) {p rest : List (Fin 512)} {t : ℕ}
    (begins : c.Begins root p t) (path : indices v = p ++ rest) (nonempty : rest ≠ []) :
    walk m root v = walkFrom m t rest := by
  rw [walk, path]
  refine walkFrom_append ?_ nonempty
  rcases begins with ⟨rfl, rfl⟩ | hcached
  · exact tableAt_nil m _
  · exact (h.tables p t hcached).2

theorem Coherent.moves (h : Coherent m₀ m root c) (hmove : Moves m root c c') :
    Coherent m₀ m root c' := by
  cases hmove with
  | @page v p rest t l begins path nonempty found =>
    refine ⟨fun w k hk => ?_, h.tables⟩
    by_cases hw : pageNumber w = pageNumber v
    · left
      simp only [hw, Function.update_self, Option.some.injEq] at hk
      rw [walk_congr_page hw, h.walk_eq begins path nonempty, found, hk]
    · simp only [Function.update_of_ne hw] at hk
      exact h.pages w k hk
  | @table p i t u begins short found =>
    refine ⟨h.pages, fun q k hk => ?_⟩
    by_cases hq : q = p ++ [i]
    · have htable : tableAt m root p = some t := by
        rcases begins with ⟨rfl, rfl⟩ | hcached
        · exact tableAt_nil m _
        · exact (h.tables p t hcached).2
      simp only [hq, Function.update_self, Option.some.injEq] at hk
      rw [hq, tableAt_snoc, htable, Option.bind_some, found, hk]
      exact ⟨by simp; omega, rfl⟩
    · simp only [Function.update_of_ne hq] at hk
      exact h.tables q k hk
  | evictPage n =>
    refine ⟨fun w k hk => h.pages w k ?_, h.tables⟩
    by_cases hw : pageNumber w = n
    · simp [hw] at hk
    · simpa only [Function.update_of_ne hw] using hk
  | evictTable p =>
    refine ⟨h.pages, fun q k hk => h.tables q k ?_⟩
    by_cases hq : q = p
    · simp [hq] at hk
    · simpa only [Function.update_of_ne hq] using hk

/-- What the processor uses is a translation of `m`, or still one of `m₀`. -/
theorem Coherent.uses (h : Coherent m₀ m root c) {o : Option Leaf} (huse : Uses m root c v o) :
    o = walk m root v ∨ o = walk m₀ root v := by
  cases huse with
  | hit cached => exact (h.pages v _ cached).imp Eq.symm Eq.symm
  | miss begins path nonempty => exact Or.inl (h.walk_eq begins path nonempty).symm

/-- After a store that keeps the tables, old translations may still be cached. -/
theorem Coherent.stale (h : Coherent m m root c) (hkept : TablesKept m m' root) :
    Coherent m m' root c :=
  ⟨fun v l hl => Or.inr ((h.pages v l hl).elim id id), fun p t ht =>
    ⟨(h.tables p t ht).1, hkept p t (h.tables p t ht).1 (h.tables p t ht).2⟩⟩

theorem Coherent.quiet (h : Coherent m m root c) (hquiet : Quiet m m' root) :
    Coherent m' m' root c := by
  refine ⟨fun v l hl => Or.inl ?_, (h.stale hquiet.tables).tables⟩
  rw [hquiet.walks v]
  exact (h.pages v l hl).elim id id

/-- `invlpg` suffices where only one page translates differently. -/
theorem Coherent.invlpg (h : Coherent m₀ m root c)
    (hother : ∀ w, pageNumber w ≠ pageNumber v → walk m root w = walk m₀ root w) :
    Coherent m m root (c.invlpg v) := by
  refine ⟨fun w l hl => Or.inl ?_, fun _ _ ht => by simp [Caches.invlpg] at ht⟩
  by_cases hw : pageNumber w = pageNumber v
  · simp [Caches.invlpg, hw] at hl
  · simp only [Caches.invlpg, Function.update_of_ne hw] at hl
    rcases h.pages w l hl with hl | hl
    · exact hl
    · exact (hother w hw).trans hl

end Coherence
end Caches
end Paging
