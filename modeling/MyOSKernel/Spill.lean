import Mathlib.Data.List.Basic
import Mathlib.Logic.Function.Basic
import Mathlib.Tactic

/-! Cells of an array stored to by a store too wide for them: what is left of a value spills over and
blanks the next cell. Stores in ascending order repair one another, except after the last cell of
each row of neighbours. -/

namespace Spill
variable {α : Type} {blank : α} {w : Nat → α} {l l' : List (Nat × α)} {i j : Nat} {a : α}

/-- Storing `a` in cell `i`, which blanks the next cell. -/
def put (blank : α) (w : Nat → α) (i : Nat) (a : α) : Nat → α :=
  Function.update (Function.update w i a) (i + 1) blank

/-- Stores, in the order of the list. -/
def run (blank : α) (w : Nat → α) (l : List (Nat × α)) : Nat → α :=
  l.foldl (fun w s => put blank w s.1 s.2) w

@[simp] theorem put_self : put blank w i a i = a := by
  rw [put, Function.update_of_ne (Nat.ne_of_lt (Nat.lt_succ_self i)), Function.update_self]

@[simp] theorem put_succ : put blank w i a (i + 1) = blank := by
  rw [put, Function.update_self]

theorem put_of_ne (hself : j ≠ i) (hnext : j ≠ i + 1) : put blank w i a j = w j := by
  rw [put, Function.update_of_ne hnext, Function.update_of_ne hself]

@[simp] theorem run_nil : run blank w [] = w := rfl

theorem run_cons {s : Nat × α} : run blank w (s :: l) = run blank (put blank w s.1 s.2) l := rfl

theorem run_append : run blank w (l ++ l') = run blank (run blank w l) l' := List.foldl_append

theorem run_append_singleton {s : Nat × α} :
    run blank w (l ++ [s]) = put blank (run blank w l) s.1 s.2 := by
  rw [run_append, run_cons, run_nil]

/-- A cell that no store meets keeps its value. -/
theorem run_of_untouched (h : ∀ s ∈ l, j ≠ s.1 ∧ j ≠ s.1 + 1) : run blank w l j = w j := by
  induction l generalizing w with
  | nil => rfl
  | cons s l ih =>
      have hhead := h s List.mem_cons_self
      rw [run_cons, ih fun s' hs' => h s' (List.mem_cons_of_mem s hs'), put_of_ne hhead.1 hhead.2]

/-- The stores come in ascending order of their cells. -/
abbrev Ascending (l : List (Nat × α)) : Prop := l.Pairwise fun s s' => s.1 < s'.1

theorem Ascending.lt_of_append {s : Nat × α} (h : Ascending (l ++ [s])) : ∀ s' ∈ l, s'.1 < s.1 :=
  fun s' hs' => (List.pairwise_append.mp h).2.2 s' hs' s List.mem_cons_self

/-- In ascending order each cell stored to keeps what was stored: what spills on it came before. -/
theorem run_of_mem (hasc : Ascending l) (h : (i, a) ∈ l) : run blank w l i = a := by
  induction l using List.reverseRecOn with
  | nil => exact absurd h List.not_mem_nil
  | append_singleton l s ih =>
      have hbefore := hasc.lt_of_append
      rw [run_append_singleton]
      obtain hold | hlast := List.mem_append.mp h
      · have hlt : i < s.1 := hbefore _ hold
        rw [put_of_ne (by omega) (by omega)]
        exact ih (List.pairwise_append.mp hasc).1 hold
      · obtain rfl := List.mem_singleton.mp hlast
        exact put_self

/-- And a cell next to one stored to, not stored to itself, is blank. -/
theorem run_of_next (hasc : Ascending l) (h : (i, a) ∈ l) (hnext : ∀ s ∈ l, s.1 ≠ i + 1) :
    run blank w l (i + 1) = blank := by
  induction l using List.reverseRecOn with
  | nil => exact absurd h List.not_mem_nil
  | append_singleton l s ih =>
      have hbefore := hasc.lt_of_append
      rw [run_append_singleton]
      obtain hold | hlast := List.mem_append.mp h
      · have hlt : i < s.1 := hbefore _ hold
        have hne := hnext s (List.mem_append_right _ List.mem_cons_self)
        rw [put_of_ne (by omega) (by omega)]
        exact ih (List.pairwise_append.mp hasc).1 hold
          fun s' hs' => hnext s' (List.mem_append_left _ hs')
      · obtain rfl := List.mem_singleton.mp hlast
        exact put_succ

end Spill
