import Mathlib

/-! # Go maps as association lists

A Go `map[K]V` is a finite map whose `range` loop visits the entries in an
unspecified order.  `GoMap κ ν` is Mathlib's `AList` at a constant value type:
`entries` is the order one `range` loop visits, `lookup` is `m[k]` with its
`ok` flag, `insert` is `m[k] = v` and `erase` is `delete(m, k)`.

Two maps are the same Go value exactly when they agree on every lookup
(`GoMap.Equiv`); that is the same as their entry lists being permutations of
each other (`equiv_iff_perm`).  Results stated through `lookup` and `sumOf`
therefore hold for every iteration order.  -/
set_option autoImplicit false

/-- A Go map from `κ` to `ν`, with its iteration order. -/
abbrev GoMap (κ ν : Type) := AList (fun _ : κ => ν)

namespace GoMap

section Basic
variable {κ ν : Type} [DecidableEq κ]

/-- Keep the entries a predicate accepts (a `range` loop deleting the others). -/
def filter (p : κ → ν → Bool) (m : GoMap κ ν) : GoMap κ ν :=
  ⟨m.entries.filter (fun e => p e.1 e.2), m.nodupKeys.sublist List.filter_sublist⟩

/-- The number of entries, Go's `len(m)`. -/
def size (m : GoMap κ ν) : Nat := m.entries.length

/-- Same Go value: equal on every lookup. -/
def Equiv (m₁ m₂ : GoMap κ ν) : Prop := ∀ k, m₁.lookup k = m₂.lookup k

theorem Equiv.refl (m : GoMap κ ν) : m.Equiv m := fun _ => rfl

theorem Equiv.symm {m₁ m₂ : GoMap κ ν} (h : m₁.Equiv m₂) : m₂.Equiv m₁ :=
  fun k => (h k).symm

theorem Equiv.trans {m₁ m₂ m₃ : GoMap κ ν} (h₁ : m₁.Equiv m₂) (h₂ : m₂.Equiv m₃) :
    m₁.Equiv m₃ :=
  fun k => (h₁ k).trans (h₂ k)

theorem equiv_iff_perm (m₁ m₂ : GoMap κ ν) : m₁.Equiv m₂ ↔ m₁.entries.Perm m₂.entries := by
  constructor
  · intro h
    apply List.lookup_ext m₁.nodupKeys m₂.nodupKeys
    intro k v
    have hk := h k
    simp only [AList.lookup] at hk
    rw [hk]
  · intro h k
    exact AList.perm_lookup h

@[simp]
theorem lookup_filter (p : κ → ν → Bool) (m : GoMap κ ν) (k : κ) :
    (m.filter p).lookup k = (m.lookup k).filter (p k) := by
  obtain ⟨entries, nodup⟩ := m
  simp only [filter, AList.lookup]
  induction entries with
  | nil => simp
  | cons e rest ih =>
      obtain ⟨k', v'⟩ := e
      have restNodup : rest.NodupKeys := (List.nodupKeys_cons.mp nodup).2
      by_cases hk : k = k'
      · subst hk
        have absent : k ∉ rest.keys := (List.nodupKeys_cons.mp nodup).1
        have restNone : List.dlookup k (rest.filter (fun e => p e.1 e.2)) = none :=
          List.dlookup_eq_none.mpr fun member =>
            absent ((List.filter_sublist.map Sigma.fst).subset member)
        by_cases hp : p k v' = true
        · simp [hp, List.dlookup_cons_eq, Option.filter_some]
        · simp [hp, restNone, List.dlookup_cons_eq, Option.filter_some]
      · have step := ih restNodup
        have skip (l : List (Σ _ : κ, ν)) : List.dlookup k (⟨k', v'⟩ :: l) = List.dlookup k l :=
          List.dlookup_cons_ne l ⟨k', v'⟩ hk
        by_cases hp : p k' v' = true
        · simp [hp, skip, step]
        · simp [hp, skip, step]

omit [DecidableEq κ] in
/-- Values picked from a map's entries, each remembering its entry's key, have
distinct keys. -/
theorem nodup_filterMap_entries {β : Type} (m : GoMap κ ν) (f : (Σ _ : κ, ν) → Option β)
    (key : β → κ) (keyed : ∀ e b, f e = some b → key b = e.1) :
    ((m.entries.filterMap f).map key).Nodup := by
  suffices onList : ∀ l : List (Σ _ : κ, ν), l.NodupKeys → ((l.filterMap f).map key).Nodup from
    onList m.entries m.nodupKeys
  intro l
  induction l with
  | nil => intro _; simp
  | cons e rest ih =>
      intro nodup
      have absent : e.1 ∉ rest.keys := (List.nodupKeys_cons.mp nodup).1
      have picked : ∀ x ∈ (rest.filterMap f).map key, x ∈ rest.keys := by
        intro x member
        obtain ⟨b, pickedB, rfl⟩ := List.mem_map.mp member
        obtain ⟨e', entry, found⟩ := List.mem_filterMap.mp pickedB
        rw [keyed e' b found]
        exact List.mem_keys_of_mem entry
      cases pick : f e with
      | none =>
          simpa [List.filterMap_cons, pick] using ih (List.nodupKeys_cons.mp nodup).2
      | some b =>
          simp only [List.filterMap_cons, pick, List.map_cons, List.nodup_cons]
          refine ⟨fun member => absent ?_, ih (List.nodupKeys_cons.mp nodup).2⟩
          rw [← keyed e b pick]
          exact picked _ member

/-- A key found after a `delete` was there before, with the same value. -/
theorem lookup_of_lookup_erase {m : GoMap κ ν} {a k : κ} {v : ν}
    (found : (m.erase a).lookup k = some v) : m.lookup k = some v := by
  by_cases same : k = a
  · subst same
    rw [AList.lookup_erase] at found
    cases found
  · rwa [AList.lookup_erase_ne same] at found

end Basic

section Sum
variable {κ ν μ : Type} [AddCommMonoid μ]

/-- `Σ f k v` over the entries, the value a `range` loop accumulating `f`
leaves behind in any iteration order. -/
def sumOf (f : κ → ν → μ) (m : GoMap κ ν) : μ := (m.entries.map fun e => f e.1 e.2).sum

theorem sumOf_perm (f : κ → ν → μ) {m₁ m₂ : GoMap κ ν} (h : m₁.entries.Perm m₂.entries) :
    m₁.sumOf f = m₂.sumOf f :=
  (h.map _).sum_eq

theorem sumOf_equiv [DecidableEq κ] (f : κ → ν → μ) {m₁ m₂ : GoMap κ ν} (h : m₁.Equiv m₂) :
    m₁.sumOf f = m₂.sumOf f :=
  sumOf_perm f ((equiv_iff_perm m₁ m₂).mp h)

@[simp]
theorem sumOf_empty (f : κ → ν → μ) : (∅ : GoMap κ ν).sumOf f = 0 := rfl

/-- Overwriting a key replaces its summand. -/
theorem sumOf_insert [DecidableEq κ] (f : κ → ν → μ) (m : GoMap κ ν) (k : κ) (v : ν) :
    sumOf f (m.insert k v) = sumOf f (m.erase k) + f k v := by
  simp only [sumOf, AList.entries_insert, List.map_cons, List.sum_cons]
  rw [add_comm]
  rfl

/-- Deleting a present key removes exactly its summand. -/
theorem sumOf_erase_add [DecidableEq κ] {f : κ → ν → μ} {m : GoMap κ ν} {k : κ} {v : ν}
    (present : m.lookup k = some v) : sumOf f (m.erase k) + f k v = m.sumOf f := by
  obtain ⟨entries, nodup⟩ := m
  have member : k ∈ entries.keys := List.dlookup_isSome.mp (by simp_all [AList.lookup])
  obtain ⟨v', before, after, absent, split, erased⟩ := List.exists_of_kerase member
  have found : List.dlookup k entries = some v' := by
    rw [split, List.dlookup_append, List.dlookup_eq_none.mpr absent]
    simp [List.dlookup_cons_eq]
  have valueEq : v' = v := by
    simp only [AList.lookup] at present
    rw [found] at present
    exact Option.some.inj present
  subst valueEq
  simp only [sumOf, AList.erase]
  rw [erased, split]
  simp only [List.map_append, List.map_cons, List.sum_append, List.sum_cons]
  abel

theorem erase_of_lookup_none [DecidableEq κ] {m : GoMap κ ν} {k : κ} (absent : m.lookup k = none) :
    m.erase k = m := by
  apply AList.ext
  exact List.kerase_of_notMem_keys (List.dlookup_eq_none.mp absent)

end Sum

section OrderedSum
variable {κ ν μ : Type} [DecidableEq κ] [AddCommMonoid μ] [PartialOrder μ] [IsOrderedAddMonoid μ]

theorem sumOf_nonneg {f : κ → ν → μ} {m : GoMap κ ν}
    (nonneg : ∀ k v, m.lookup k = some v → 0 ≤ f k v) : 0 ≤ m.sumOf f := by
  apply List.sum_nonneg
  intro x member
  obtain ⟨e, entry, rfl⟩ := List.mem_map.mp member
  exact nonneg e.1 e.2 (AList.mem_lookup_iff.mpr entry)

/-- With no negative summand, each summand is at most the sum. -/
theorem le_sumOf {f : κ → ν → μ} {m : GoMap κ ν} {k : κ} {v : ν}
    (nonneg : ∀ k v, m.lookup k = some v → 0 ≤ f k v) (present : m.lookup k = some v) :
    f k v ≤ m.sumOf f := by
  have restNonneg : 0 ≤ sumOf f (m.erase k) :=
    sumOf_nonneg fun k' v' found => nonneg k' v' (lookup_of_lookup_erase found)
  calc f k v ≤ sumOf f (m.erase k) + f k v := le_add_of_nonneg_left restNonneg
    _ = m.sumOf f := sumOf_erase_add present

end OrderedSum

end GoMap
