import Mathlib.Data.List.Basic
import Mathlib.Logic.Function.Basic
import Mathlib.Tactic

/-! Radix trees by the paths of their slots, and the finite maps they implement. A filled slot leads
to a node, or holds a payload on the last level; a tree grows by filling empty slots of its nodes.
The payloads of a tree built by insertions are those of the map in which the last write wins. -/

namespace MyOSKernel

/-- What each slot holds; a slot is named by the path from the root to it. -/
def RadixTree (ι α : Type) := List ι → Option α

namespace RadixTree
variable {ι α : Type} {t t' u : RadixTree ι α} {p q r : List ι} {i : ι} {x y : α} {depth : Nat}

def empty : RadixTree ι α := fun _ => none

/-- The path leads to the root or to what a filled slot leads to. -/
def IsNode (t : RadixTree ι α) (q : List ι) : Prop := q = [] ∨ ∃ x, t q = some x

/-- Filled slots belong to nodes, and no two slots above the last level lead to the same node. -/
structure WellFormed (depth : Nat) (t : RadixTree ι α) : Prop where
  root : t [] = none
  closed : ∀ q i x, t (q ++ [i]) = some x → t.IsNode q
  unshared : ∀ q r x, q.length < depth → r.length < depth → t q = some x → t r = some x → q = r

theorem wellFormed_empty : WellFormed depth (empty : RadixTree ι α) :=
  ⟨rfl, fun _ _ _ h => absurd h (by simp [empty]), fun _ _ _ _ _ h => absurd h (by simp [empty])⟩

/-- Nothing hangs below an empty slot. -/
theorem WellFormed.none_below (h : t.WellFormed depth) (hq : q ≠ []) (hnone : t q = none) (i : ι) :
    t (q ++ [i]) = none := by
  cases hi : t (q ++ [i]) with
  | none => rfl
  | some x =>
      rcases h.closed q i x hi with hroot | ⟨y, hy⟩
      · exact absurd hroot hq
      · rw [hnone] at hy
        exact absurd hy (by simp)

/-- The slots on the way to a filled one are filled. -/
theorem WellFormed.prefix_some (h : t.WellFormed depth) (hq : q ≠ []) (hr : t (q ++ r) = some x) :
    ∃ y, t q = some y := by
  induction r using List.reverseRecOn generalizing x with
  | nil => exact ⟨x, by rw [← hr, List.append_nil]⟩
  | append_singleton r i ih =>
      rw [← List.append_assoc] at hr
      rcases h.closed _ i x hr with hroot | ⟨y, hy⟩
      · exact absurd (List.append_eq_nil_iff.mp hroot).1 hq
      · exact ih hy

section Set
variable [DecidableEq ι]

/-- Fills one slot. -/
def set (t : RadixTree ι α) (q : List ι) (x : α) : RadixTree ι α := Function.update t q (some x)

@[simp] theorem set_self : t.set q x q = some x := Function.update_self _ _ _

theorem set_of_ne (h : r ≠ q) : t.set q x r = t r := Function.update_of_ne h _ _

theorem set_eq_some_of_some (h : t r = some y) (hq : t q = none) : t.set q x r = some y := by
  rw [set_of_ne, h]
  rintro rfl
  rw [hq] at h
  exact absurd h (by simp)

/-- An empty slot of a node is filled with a value no slot above the last level holds. -/
theorem WellFormed.set (h : t.WellFormed depth) (hq : t.IsNode q)
    (hslot : ∀ r, r ≠ q ++ [i] → r.length < depth → (q ++ [i]).length < depth → t r ≠ some x) :
    (t.set (q ++ [i]) x).WellFormed depth := by
  refine ⟨?_, ?_, ?_⟩
  · rw [set_of_ne (by simp), h.root]
  · intro r j y hy
    have hnode : t.IsNode r → (t.set (q ++ [i]) x).IsNode r := by
      intro hc
      obtain hroot | ⟨z, hz⟩ := hc
      · exact Or.inl hroot
      · by_cases hr : r = q ++ [i]
        · exact Or.inr ⟨x, by rw [hr, set_self]⟩
        · exact Or.inr ⟨z, by rw [set_of_ne hr, hz]⟩
    by_cases hr : r ++ [j] = q ++ [i]
    · obtain ⟨rfl, _⟩ := List.append_inj' hr rfl
      exact hnode hq
    · rw [set_of_ne hr] at hy
      exact hnode (h.closed r j y hy)
  · intro r s y hr hs hry hsy
    by_cases hrq : r = q ++ [i]
    · by_cases hsq : s = q ++ [i]
      · rw [hrq, hsq]
      · rw [hrq, set_self] at hry
        rw [set_of_ne hsq, ← hry] at hsy
        exact absurd hsy (hslot s hsq hs (hrq ▸ hr))
    · rw [set_of_ne hrq] at hry
      by_cases hsq : s = q ++ [i]
      · rw [hsq, set_self] at hsy
        rw [← hsy] at hry
        exact absurd hry (hslot r hrq hr (hsq ▸ hs))
      · rw [set_of_ne hsq] at hsy
        exact h.unshared r s y hr hs hry hsy

end Set

/-- `u` has grown from `t` by filling empty slots strictly above `path`. -/
structure Grown (t u : RadixTree ι α) (path : List ι) : Prop where
  keep : ∀ q x, t q = some x → u q = some x
  only : ∀ q, ¬(q <+: path ∧ q.length < path.length) → u q = t q

namespace Grown

theorem refl (t : RadixTree ι α) (path : List ι) : Grown t t path :=
  ⟨fun _ _ h => h, fun _ _ => rfl⟩

theorem trans (h : Grown t u p) (h' : Grown u t' p) : Grown t t' p :=
  ⟨fun q x hq => h'.keep q x (h.keep q x hq), fun q hq => (h'.only q hq).trans (h.only q hq)⟩

theorem set [DecidableEq ι] (hq : q <+: p) (hlen : q.length < p.length) (hnone : t q = none) :
    Grown t (t.set q x) p := by
  refine ⟨fun r y hr => set_eq_some_of_some hr hnone, fun r hr => set_of_ne ?_⟩
  rintro rfl
  exact hr ⟨hq, hlen⟩

/-- Payloads are not touched. -/
theorem payload (h : Grown t u p) (hr : p.length ≤ r.length) : u r = t r :=
  h.only r fun hc => absurd hc.2 (by omega)

end Grown

/-! ### Last write wins -/

section LastWrite
variable {κ : Type} [DecidableEq κ] {writes : List (κ × α)} {k l : κ}

/-- The value last written under a key. -/
def lastWrite (writes : List (κ × α)) (k : κ) : Option α :=
  (writes.reverse.find? fun w => w.1 = k).map Prod.snd

theorem lastWrite_append_singleton :
    lastWrite (writes ++ [(l, x)]) k = if l = k then some x else lastWrite writes k := by
  unfold lastWrite
  rw [List.reverse_append, List.reverse_singleton, List.singleton_append, List.find?_cons]
  by_cases h : l = k
  · simp [h]
  · simp [h]

theorem lastWrite_eq_none_iff : lastWrite writes k = none ↔ ∀ w ∈ writes, w.1 ≠ k := by
  simp [lastWrite]

/-- The last write under a key is the one no later write overrides. -/
theorem lastWrite_of_last {before after : List (κ × α)} (h : ∀ w ∈ after, w.1 ≠ k) :
    lastWrite (before ++ (k, x) :: after) k = some x := by
  have hafter : (after.reverse.find? fun w => w.1 = k) = none := by
    rw [List.find?_eq_none]
    intro w hw
    simpa using h w (List.mem_reverse.mp hw)
  simp [lastWrite, List.find?_append, hafter]

theorem mem_of_lastWrite (h : lastWrite writes k = some x) : (k, x) ∈ writes := by
  unfold lastWrite at h
  obtain ⟨w, hw, rfl⟩ := Option.map_eq_some_iff.mp h
  have hkey : w.1 = k := by simpa using List.find?_some hw
  rw [← hkey]
  exact List.mem_reverse.mp (List.mem_of_find?_eq_some hw)

/-- When no key is written with two values the order of the writes does not matter. -/
theorem lastWrite_eq_of_mem_iff {writes' : List (κ × α)} (hmem : ∀ w, w ∈ writes' ↔ w ∈ writes)
    (hvalue : ∀ w ∈ writes, ∀ w' ∈ writes, w.1 = w'.1 → w.2 = w'.2) :
    lastWrite writes' k = lastWrite writes k := by
  cases hx : lastWrite writes k with
  | none =>
      rw [lastWrite_eq_none_iff] at hx ⊢
      exact fun w hw => hx w ((hmem w).mp hw)
  | some x =>
      have hw := mem_of_lastWrite hx
      cases hy : lastWrite writes' k with
      | none => exact absurd rfl (lastWrite_eq_none_iff.mp hy _ ((hmem _).mpr hw))
      | some y => exact congrArg some (hvalue (k, y) ((hmem _).mp (mem_of_lastWrite hy)) (k, x) hw rfl)

end LastWrite

/-- A tree that grew towards `path` and got a payload there holds it, and no other payload changed. -/
theorem Grown.set_payload [DecidableEq ι] (h : Grown t u p) (hr : r.length = p.length) :
    u.set p x r = if p = r then some x else t r := by
  by_cases hp : p = r
  · rw [if_pos hp, hp, set_self]
  · rw [if_neg hp, set_of_ne (Ne.symm hp), h.payload hr.ge]

end RadixTree

end MyOSKernel
