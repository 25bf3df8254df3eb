import LucidiOS.Memory.ByteMemory

/-! Four-level x86-64 paging hierarchies in byte memory. A frame is numbered by
its physical address divided by 4096. -/
namespace Paging
open ByteMemory

/-- Entry `i` of the table held in frame `t`. -/
def entry (m : Memory) (t : ℕ) (i : Fin 512) : BitVec 64 := load64 m (4096 * t + 8 * i)

def present (e : BitVec 64) : Bool := e.getLsbD 0

/-- The PS bit: the entry maps a large page instead of naming a table. -/
def large (e : BitVec 64) : Bool := e.getLsbD 7

/-- Address bits 51..12. -/
def frame (e : BitVec 64) : ℕ := e.toNat / 4096 % 2 ^ 40

/-- The table that an entry leads to, when it is present and no large page. -/
def child (m : Memory) (t : ℕ) (i : Fin 512) : Option ℕ :=
  if present (entry m t i) && !large (entry m t i) then some (frame (entry m t i)) else none

/-- The table reached from `root` along a path of indices. -/
def tableAt (m : Memory) (root : ℕ) (path : List (Fin 512)) : Option ℕ :=
  path.foldlM (child m) root

/-- The entry that ends a walk; levels 0, 1 and 2 map 4 KiB, 2 MiB and 1 GiB. -/
structure Leaf where
  level : ℕ
  entry : BitVec 64
  deriving DecidableEq

def walkFrom (m : Memory) (t : ℕ) : List (Fin 512) → Option Leaf
  | [] => none
  | [i] => if present (entry m t i) then some ⟨0, entry m t i⟩ else none
  | i :: j :: rest =>
      if !present (entry m t i) then none
      else if large (entry m t i) then
        -- PS is reserved in the top-level table
        if rest.length < 2 then some ⟨rest.length + 1, entry m t i⟩ else none
      else walkFrom m (frame (entry m t i)) (j :: rest)

def index (v : BitVec 64) (level : ℕ) : Fin 512 :=
  ⟨v.toNat / 2 ^ (12 + 9 * level) % 512, Nat.mod_lt _ (by decide)⟩

theorem index_val (v : BitVec 64) (level : ℕ) :
    (index v level : ℕ) = v.toNat / 2 ^ (12 + 9 * level) % 512 := rfl

def indices (v : BitVec 64) : List (Fin 512) := [index v 3, index v 2, index v 1, index v 0]

/-- The hardware walk of a virtual address. -/
def walk (m : Memory) (root : ℕ) (v : BitVec 64) : Option Leaf := walkFrom m root (indices v)

/-- Bits 47..12. -/
def pageNumber (v : BitVec 64) : ℕ := v.toNat / 4096 % 2 ^ 36

def Leaf.bytes (l : Leaf) : ℕ := 4096 * 512 ^ l.level

/-- The physical address a leaf gives to a virtual address. -/
def Leaf.address (l : Leaf) (v : BitVec 64) : ℕ :=
  4096 * frame l.entry / l.bytes * l.bytes + v.toNat % l.bytes

def translateAddr (m : Memory) (root : ℕ) (v : BitVec 64) : Option ℕ :=
  (walk m root v).map fun l => l.address v

/-- No frame holds two tables of the hierarchy. -/
def Distinct (m : Memory) (root : ℕ) : Prop :=
  ∀ p q t, p.length ≤ 3 → q.length ≤ 3 →
    tableAt m root p = some t → tableAt m root q = some t → p = q

/-- No entry met on the way to the last-level table of `v` maps a large page. -/
def NoLarge (m : Memory) (root : ℕ) (path : List (Fin 512)) : Prop :=
  ∀ p i t, p ++ [i] <+: path → p.length ≤ 2 → tableAt m root p = some t →
    present (entry m t i) = true → large (entry m t i) = false

theorem indices_eq_iff {v w : BitVec 64} : indices v = indices w ↔ pageNumber v = pageNumber w := by
  simp only [indices, index, pageNumber, List.cons.injEq, Fin.mk.injEq, and_true]
  omega

@[simp] theorem tableAt_nil (m : Memory) (root : ℕ) : tableAt m root [] = some root := rfl

theorem tableAt_snoc (m : Memory) (root : ℕ) (p : List (Fin 512)) (i : Fin 512) :
    tableAt m root (p ++ [i]) = (tableAt m root p).bind fun t => child m t i := by
  simp [tableAt, List.foldlM_append]

theorem child_eq_some {m : Memory} {t u : ℕ} {i : Fin 512} :
    child m t i = some u ↔ present (entry m t i) = true ∧ large (entry m t i) = false ∧
      frame (entry m t i) = u := by
  simp [child, and_assoc]

theorem child_congr {m m' : Memory} {t : ℕ} {i : Fin 512} (h : entry m' t i = entry m t i) :
    child m' t i = child m t i := by simp only [child, h]

theorem child_eq_none_of_absent {m : Memory} {t : ℕ} {i : Fin 512}
    (h : present (entry m t i) = false) : child m t i = none := by simp [child, h]

theorem tableAt_cons (m : Memory) (root : ℕ) (i : Fin 512) (p : List (Fin 512)) :
    tableAt m root (i :: p) = (child m root i).bind fun t => tableAt m t p := rfl

/-- A walk goes through every table on its path. -/
theorem walkFrom_append {m : Memory} {t u : ℕ} {p rest : List (Fin 512)}
    (h : tableAt m t p = some u) (hr : rest ≠ []) :
    walkFrom m t (p ++ rest) = walkFrom m u rest := by
  induction p generalizing t with
  | nil => rw [List.nil_append, Option.some.inj h]
  | cons i p ih =>
    rw [tableAt_cons, Option.bind_eq_some_iff] at h
    obtain ⟨t', hchild, ht'⟩ := h
    obtain ⟨h1, h2, h3⟩ := child_eq_some.mp hchild
    obtain ⟨j, rest', hjr⟩ := List.exists_cons_of_ne_nil (show p ++ rest ≠ [] by simp [hr])
    rw [← ih ht', List.cons_append, hjr]
    simp [walkFrom, h1, h2, h3]

theorem walkFrom_absent {m : Memory} {t : ℕ} {i : Fin 512} (rest : List (Fin 512))
    (h : present (entry m t i) = false) : walkFrom m t (i :: rest) = none := by
  cases rest with
  | nil => simp [walkFrom, h]
  | cons j rest => simp [walkFrom, h]

/-- A new memory in which every table of the hierarchy is unchanged outside one slot. -/
structure AgreeExcept (m m' : Memory) (root slotTable : ℕ) (slotIndex : Fin 512) : Prop where
  entry_eq : ∀ p t i, p.length ≤ 3 → tableAt m root p = some t →
    (t ≠ slotTable ∨ i ≠ slotIndex) → entry m' t i = entry m t i

section Congr
variable {m m' : Memory} {root : ℕ}

/-- A path leads to the same table when the entries on it are unchanged. -/
theorem tableAt_congr {p : List (Fin 512)} (h : ∀ q t i, q ++ [i] <+: p →
    tableAt m root q = some t → entry m' t i = entry m t i) :
    tableAt m' root p = tableAt m root p := by
  induction p using List.reverseRecOn with
  | nil => rw [tableAt_nil, tableAt_nil]
  | append_singleton p i ih =>
    rw [tableAt_snoc, tableAt_snoc, ih fun q t j hq => h q t j (hq.trans (List.prefix_append p [i]))]
    cases ht : tableAt m root p with
    | none => rw [Option.bind_none, Option.bind_none]
    | some t =>
      rw [Option.bind_some, Option.bind_some]
      exact child_congr (h p t i (List.prefix_refl _) ht)

/-- A walk is unchanged when the entries it meets are. -/
theorem walkFrom_congr (idx p : List (Fin 512)) {t : ℕ} (ht : tableAt m root p = some t)
    (h : ∀ q u i, q ++ [i] <+: p ++ idx → tableAt m root q = some u →
      entry m' u i = entry m u i) : walkFrom m' t idx = walkFrom m t idx := by
  induction idx generalizing p t with
  | nil => simp only [walkFrom]
  | cons i rest ih =>
    have he := h p t i ⟨rest, by simp⟩ ht
    cases rest with
    | nil => simp only [walkFrom, he]
    | cons j rest =>
      simp only [walkFrom, he]
      split_ifs with h1 h2 h3
      · rfl
      · rfl
      · rfl
      · refine ih (p ++ [i]) ?_ (by simpa using h)
        rw [tableAt_snoc, ht, Option.bind_some, child_eq_some]
        exact ⟨by simpa using h1, by simpa using h2, rfl⟩

end Congr

section Link
variable {m m' : Memory} {root T N : ℕ} {p₀ : List (Fin 512)} {i₀ : Fin 512}

/-- Linking an empty table `N` at an absent slot adds one table to the hierarchy. -/
theorem tableAt_link (hd : Distinct m root) (hT : tableAt m root p₀ = some T)
    (h₀ : p₀.length ≤ 2) (habs : present (entry m T i₀) = false)
    (hag : AgreeExcept m m' root T i₀) (hnew : child m' T i₀ = some N)
    (hzero : ∀ i, present (entry m' N i) = false) (p : List (Fin 512)) (hp : p.length ≤ 3) :
    tableAt m' root p = if p = p₀ ++ [i₀] then some N else tableAt m root p := by
  induction p using List.reverseRecOn with
  | nil => simp
  | append_singleton p i ih =>
    have hlen : p.length + 1 ≤ 3 := by simpa using hp
    rw [tableAt_snoc, ih (by omega)]
    by_cases hpp : p = p₀ ++ [i₀]
    · -- below the new table there was nothing, and the new table is empty
      have hold : tableAt m root p = none := by
        rw [hpp, tableAt_snoc, hT, Option.bind_some, child_eq_none_of_absent habs]
      have hne : p ++ [i] ≠ p₀ ++ [i₀] := by
        intro he
        have := congrArg List.length he
        have := congrArg List.length hpp
        simp at *
        omega
      rw [if_pos hpp, if_neg hne, tableAt_snoc, hold, Option.bind_some, Option.bind_none,
        child_eq_none_of_absent (hzero i)]
    · rw [if_neg hpp]
      cases ht : tableAt m root p with
      | none =>
        have hne : p ++ [i] ≠ p₀ ++ [i₀] := by
          intro he
          obtain ⟨rfl, -⟩ := List.append_inj' he rfl
          rw [hT] at ht
          contradiction
        rw [if_neg hne, tableAt_snoc, ht]
        rfl
      | some t =>
        by_cases hslot : p ++ [i] = p₀ ++ [i₀]
        · obtain ⟨rfl, hi⟩ := List.append_inj' hslot rfl
          obtain rfl : i = i₀ := by simpa using hi
          rw [if_pos hslot, Option.bind_some, ← hnew, Option.some.inj (ht.symm.trans hT)]
        · have hother : t ≠ T ∨ i ≠ i₀ := by
            by_contra hc
            push Not at hc
            obtain ⟨rfl, rfl⟩ := hc
            exact hslot (by rw [hd p p₀ t (by omega) (by omega) ht hT])
          rw [if_neg hslot, tableAt_snoc, ht, Option.bind_some, Option.bind_some, child, child,
            hag.entry_eq p t i (by omega) ht hother]

/-- Linking an empty table at an absent slot changes no walk. -/
theorem walkFrom_link (hd : Distinct m root) (hT : tableAt m root p₀ = some T)
    (h₀ : p₀.length ≤ 2) (habs : present (entry m T i₀) = false)
    (hag : AgreeExcept m m' root T i₀) (hnew : child m' T i₀ = some N)
    (hzero : ∀ i, present (entry m' N i) = false) (idx p : List (Fin 512)) (t : ℕ)
    (ht : tableAt m root p = some t) (hlen : p.length + idx.length = 4) :
    walkFrom m' t idx = walkFrom m t idx := by
  induction idx generalizing p t with
  | nil => rfl
  | cons i rest ih =>
    simp only [List.length_cons] at hlen
    by_cases hslot : t = T ∧ i = i₀
    · obtain ⟨rfl, rfl⟩ := hslot
      have hp := hd p p₀ t (by omega) (by omega) ht hT
      rw [walkFrom_absent rest habs]
      cases rest with
      | nil =>
        -- the slot lies above the last level
        subst hp
        simp only [List.length_nil] at hlen
        omega
      | cons j rest =>
        obtain ⟨h1, h2, h3⟩ := child_eq_some.mp hnew
        simp only [walkFrom, h1, h2, h3, Bool.not_true, Bool.false_eq_true, ↓reduceIte]
        exact walkFrom_absent rest (hzero j)
    · have he := hag.entry_eq p t i (by omega) ht (by tauto)
      cases rest with
      | nil => simp only [walkFrom, he]
      | cons j rest =>
        simp only [walkFrom, he]
        split_ifs with h1 h2 h3
        · rfl
        · rfl
        · rfl
        · refine ih (p ++ [i]) _ ?_ (by simp at hlen ⊢; omega)
          rw [tableAt_snoc, ht, Option.bind_some, child_eq_some]
          exact ⟨by simpa using h1, by simpa using h2, rfl⟩

end Link

section Set
variable {m m' : Memory} {root T : ℕ} {p₀ : List (Fin 512)} {i₀ : Fin 512}

/-- A store to a last-level slot leaves every table where it was. -/
theorem tableAt_set (hd : Distinct m root) (hT : tableAt m root p₀ = some T)
    (h₀ : p₀.length = 3) (hag : AgreeExcept m m' root T i₀) (p : List (Fin 512))
    (hp : p.length ≤ 3) : tableAt m' root p = tableAt m root p := by
  refine tableAt_congr fun q t i hq ht => ?_
  have hlen : q.length + 1 ≤ 3 := by simpa using hq.length_le.trans hp
  refine hag.entry_eq q t i (by omega) ht (Or.inl ?_)
  rintro rfl
  have := hd q p₀ t (by omega) (by omega) ht hT
  rw [this] at hlen
  omega

/-- A store to a last-level slot changes no walk that ends elsewhere. -/
theorem walkFrom_set (hd : Distinct m root) (hT : tableAt m root p₀ = some T)
    (h₀ : p₀.length = 3) (hag : AgreeExcept m m' root T i₀) {idx : List (Fin 512)}
    (hlen : idx.length = 4) (hne : idx ≠ p₀ ++ [i₀]) :
    walkFrom m' root idx = walkFrom m root idx := by
  refine walkFrom_congr idx [] (tableAt_nil m root) fun q t i hq ht => ?_
  have hq4 : q.length + 1 ≤ 4 := by simpa [hlen] using hq.length_le
  apply hag.entry_eq q t i (by omega) ht
  by_contra hc
  push Not at hc
  obtain ⟨rfl, rfl⟩ := hc
  have hq₀ := hd q p₀ t (by omega) (by omega) ht hT
  have heq := hq.eq_of_length (by simp [hq₀, h₀, hlen])
  rw [hq₀, List.nil_append] at heq
  exact hne heq.symm

end Set
end Paging
