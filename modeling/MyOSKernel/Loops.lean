import Mathlib.Data.Finset.Card
import Mathlib.Algebra.BigOperators.Group.Finset.Basic
import Mathlib.Tactic

/-! Counted loops and what they count. A counted loop is `Nat.fold`; its invariant is indexed by the
number of finished rounds. A running maximum over some of the rounds ends with the first of the
largest. A tally is the number of positions of an array holding a given value, and changes by one at
each end of a single update. -/

namespace MyOSKernel

section Fold
variable {σ : Type} {n : Nat} {f : (i : Nat) → i < n → σ → σ} {s : σ}

/-- The invariant rule of a counted loop. -/
theorem fold_invariant (P : Nat → σ → Prop) (hzero : P 0 s)
    (hstep : ∀ i (hi : i < n) s, P i s → P (i + 1) (f i hi s)) : P n (Nat.fold n f s) := by
  induction n with
  | zero => exact hzero
  | succ n ih =>
      rw [Nat.fold_succ]
      exact hstep n _ _ (ih fun i hi s hs => hstep i (by omega) s hs)

end Fold

section RunningMax
variable {α : Type} {P : Nat → Prop} {key : Nat → Nat} {val : Nat → α} {n i : Nat} {x : α}

/-- Among the first `n` positions with `P`, position `i` is the first with the largest key. -/
structure FirstMax (P : Nat → Prop) (key : Nat → Nat) (n i : Nat) : Prop where
  lt : i < n
  holds : P i
  maximal : ∀ j < n, P j → key j ≤ key i
  first : ∀ j < i, P j → key j < key i

/-- A round of a running maximum: the largest key so far, and the value that came with it. -/
def maxRound (P : Nat → Prop) [DecidablePred P] (key : Nat → Nat) (val : Nat → α) (i : Nat)
    (out : Nat × α) : Nat × α :=
  if P i then if out.1 < key i then (key i, val i) else out else out

/-- A running maximum that started from `x`: no key so far is positive, or the first of the largest
has been found. -/
def MaxSoFar (P : Nat → Prop) (key : Nat → Nat) (val : Nat → α) (x : α) (n : Nat) (out : Nat × α) :
    Prop :=
  (out = (0, x) ∧ ∀ i < n, P i → key i = 0) ∨
    ∃ i, FirstMax P key n i ∧ 0 < key i ∧ out = (key i, val i)

theorem FirstMax.succ (h : FirstMax P key n i) (hnext : P n → key n ≤ key i) :
    FirstMax P key (n + 1) i := by
  refine ⟨Nat.lt_succ_of_lt h.lt, h.holds, ?_, h.first⟩
  exact Nat.forall_lt_succ_right.mpr ⟨h.maximal, hnext⟩

theorem FirstMax.of_larger (hP : P n) (hlarger : ∀ j < n, P j → key j < key n) :
    FirstMax P key (n + 1) n := by
  refine ⟨Nat.lt_succ_self n, hP, ?_, hlarger⟩
  exact Nat.forall_lt_succ_right.mpr ⟨fun j hj hPj => (hlarger j hj hPj).le, fun _ => le_rfl⟩

theorem MaxSoFar.le {out : Nat × α} (h : MaxSoFar P key val x n out) {j : Nat} (hj : j < n)
    (hPj : P j) : key j ≤ out.1 := by
  rcases h with ⟨rfl, hzero⟩ | ⟨i, hmax, -, rfl⟩
  · exact (hzero j hj hPj).le
  · exact hmax.maximal j hj hPj

/-- A round that is no larger changes nothing. -/
theorem MaxSoFar.succ {out : Nat × α} (h : MaxSoFar P key val x n out)
    (hnext : P n → key n ≤ out.1) : MaxSoFar P key val x (n + 1) out := by
  rcases h with ⟨rfl, hzero⟩ | ⟨i, hmax, hpos, rfl⟩
  · have hzero' : P n → key n = 0 := fun hP => Nat.eq_zero_of_le_zero (hnext hP)
    exact Or.inl ⟨rfl, Nat.forall_lt_succ_right.mpr ⟨hzero, hzero'⟩⟩
  · exact Or.inr ⟨i, hmax.succ hnext, hpos, rfl⟩

variable [DecidablePred P]

theorem maxRound_spec {out : Nat × α} (h : MaxSoFar P key val x n out) :
    MaxSoFar P key val x (n + 1) (maxRound P key val n out) := by
  unfold maxRound
  by_cases hP : P n
  · rw [if_pos hP]
    by_cases hlarger : out.1 < key n
    · rw [if_pos hlarger]
      refine Or.inr ⟨n, FirstMax.of_larger hP ?_, Nat.zero_lt_of_lt hlarger, rfl⟩
      exact fun j hj hPj => (h.le hj hPj).trans_lt hlarger
    · rw [if_neg hlarger]
      exact h.succ fun _ => Nat.le_of_not_lt hlarger
  · rw [if_neg hP]
    exact h.succ fun hPn => absurd hPn hP

theorem fold_maxRound (x : α) (n : Nat) :
    MaxSoFar P key val x n (Nat.fold n (fun i _ out => maxRound P key val i out) (0, x)) := by
  apply fold_invariant (MaxSoFar P key val x)
  · exact Or.inl ⟨rfl, fun i hi => absurd hi (Nat.not_lt_zero i)⟩
  · exact fun i _ out hout => maxRound_spec hout

end RunningMax

section Tally
variable {α : Type} [DecidableEq α] {n i : Nat} {f g : Nat → α} {x y z : α}

/-- How many of the first `n` positions hold `x`. -/
def tally (n : Nat) (f : Nat → α) (x : α) : Nat := ((Finset.range n).filter fun i => f i = x).card

theorem tally_congr (h : ∀ i < n, f i = g i) : tally n f x = tally n g x := by
  unfold tally
  congr 1
  apply Finset.filter_congr
  intro i hi
  rw [h i (Finset.mem_range.mp hi)]

theorem tally_pos (hi : i < n) (h : f i = x) : 0 < tally n f x :=
  Finset.card_pos.mpr ⟨i, Finset.mem_filter.mpr ⟨Finset.mem_range.mpr hi, h⟩⟩

theorem tally_eq_zero_iff : tally n f x = 0 ↔ ∀ i < n, f i ≠ x := by
  simp [tally, Finset.filter_eq_empty_iff]

theorem tally_const (h : ∀ i < n, f i = x) : tally n f x = n := by
  unfold tally
  rw [Finset.filter_true_of_mem fun i hi => h i (Finset.mem_range.mp hi), Finset.card_range]

/-- One update takes the old value's tally down by one and the new value's up by one. -/
theorem tally_update (hi : i < n) :
    tally n (Function.update f i y) z + (if f i = z then 1 else 0) =
      tally n f z + (if y = z then 1 else 0) := by
  have hmem : i ∈ Finset.range n := Finset.mem_range.mpr hi
  have hrest : ∑ j ∈ (Finset.range n).erase i, (if Function.update f i y j = z then 1 else 0) =
      ∑ j ∈ (Finset.range n).erase i, (if f j = z then 1 else 0) := by
    apply Finset.sum_congr rfl
    intro j hj
    rw [Function.update_of_ne (Finset.ne_of_mem_erase hj)]
  simp only [tally, Finset.card_filter]
  rw [← Finset.add_sum_erase _ _ hmem, ← Finset.add_sum_erase (Finset.range n) _ hmem, hrest,
    Function.update_self]
  omega

/-- The tallies of all values that occur add up to the number of positions. -/
theorem sum_tally (t : Finset α) (h : ∀ i < n, f i ∈ t) : ∑ x ∈ t, tally n f x = n := by
  have hcard := Finset.card_eq_sum_card_fiberwise (f := f) (s := Finset.range n) (t := t)
    (fun i hi => h i (Finset.mem_range.mp hi))
  rw [Finset.card_range] at hcard
  exact hcard.symm

end Tally

end MyOSKernel
