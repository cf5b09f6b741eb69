import Mathlib.Tactic

/-! # Merging subtrees as they complete

A binary tree over a growing number of leaves, whose left subtree is always the largest complete one
that leaves something for the right. It is built with a stack: a complete subtree waits for its right
sibling, of the same size, so that the stack holds one subtree for each bit of the number of leaves
(`stackAt`). Pushing one more leaf merges as many as there are trailing zeros in the new number
(`pushed_stackAt`), and joining the stack onto the last leaf gives the tree (`joined_stackAt`).

A node has a value of its own (`β`) and one that its parent takes (`cv`), since the last node made is
treated apart. -/

namespace NanoChrono.Hash

variable {α β : Type} (leaf : Nat → β) (cv : β → α) (parent : α → α → β)

/-- The tree over `n` leaves from leaf `i` on. -/
def tree (i n : Nat) : β :=
  if _h : n ≤ 1 then leaf i
  else parent (cv (tree i (2 ^ Nat.log2 (n - 1))))
    (cv (tree (i + 2 ^ Nat.log2 (n - 1)) (n - 2 ^ Nat.log2 (n - 1))))
termination_by n
decreasing_by
  · have := Nat.log2_self_le (n := n - 1) (by omega)
    omega
  · have := Nat.two_pow_pos (Nat.log2 (n - 1))
    omega

/-- The complete subtrees that wait when `c` of `2 ^ k` leaves have come, the smallest first. -/
def stackAt (k c : Nat) : List α :=
  if _h : c = 0 then []
  else if c % 2 = 1 then
    cv (tree leaf cv parent ((c - 1) * 2 ^ k) (2 ^ k)) :: stackAt (k + 1) (c / 2)
  else stackAt (k + 1) (c / 2)
termination_by c

/-- Pushes the value of a subtree that makes the number of subtrees `total`: each trailing zero of it
completes a larger one, whose left half waits on the stack, `none` if it does not. -/
@[grind =] def pushed (total : Nat) (v : α) : List α → Option (List α)
  | [] => if total % 2 = 0 then none else some [v]
  | left :: stack =>
    if total % 2 = 0 then pushed (total / 2) (cv (parent left v)) stack else some (v :: left :: stack)

theorem tree_node {i n : Nat} (h : 1 < n) :
    tree leaf cv parent i n = parent (cv (tree leaf cv parent i (2 ^ Nat.log2 (n - 1))))
      (cv (tree leaf cv parent (i + 2 ^ Nat.log2 (n - 1)) (n - 2 ^ Nat.log2 (n - 1)))) := by
  rw [tree, dif_neg (by omega)]

variable {cv parent} in
theorem pushed_odd {total : Nat} (h : total % 2 = 1) (v : α) (stack : List α) :
    pushed cv parent total v stack = some (v :: stack) := by
  cases stack <;> rw [pushed, if_neg (by omega)]

/-- Only what a parent hands on counts. -/
theorem pushed_congr {γ : Type} {cv : β → α} {parent : α → α → β} {cv' : γ → α} {parent' : α → α → γ}
    (h : ∀ left right, cv (parent left right) = cv' (parent' left right)) (total : Nat) (v : α)
    (stack : List α) : pushed cv parent total v stack = pushed cv' parent' total v stack := by
  induction stack generalizing total v with
  | nil => rfl
  | cons left stack ih => rw [pushed, pushed, h, ih]

variable {leaf cv parent} in
theorem tree_one (i : Nat) : tree leaf cv parent i 1 = leaf i := by rw [tree, dif_pos le_rfl]

/-- A complete tree and at most as many leaves again: the complete one is the left subtree. -/
theorem tree_join {i k n : Nat} (hpos : 0 < n) (hn : n ≤ 2 ^ k) :
    tree leaf cv parent i (2 ^ k + n) =
      parent (cv (tree leaf cv parent i (2 ^ k))) (cv (tree leaf cv parent (i + 2 ^ k) n)) := by
  have hk := Nat.two_pow_pos k
  have hlog : Nat.log2 (2 ^ k + n - 1) = k := by
    rw [Nat.log2_eq_iff (by omega), Nat.pow_succ]
    omega
  rw [tree_node leaf cv parent (by omega), hlog, Nat.add_sub_cancel_left]

theorem tree_double (i k : Nat) :
    tree leaf cv parent i (2 ^ (k + 1)) =
      parent (cv (tree leaf cv parent i (2 ^ k))) (cv (tree leaf cv parent (i + 2 ^ k) (2 ^ k))) := by
  rw [Nat.pow_succ, Nat.mul_two]
  exact tree_join leaf cv parent (Nat.two_pow_pos k) le_rfl

variable {leaf cv parent}

theorem stackAt_even {k c : Nat} (h : c % 2 = 0) :
    stackAt leaf cv parent k c = stackAt leaf cv parent (k + 1) (c / 2) := by
  by_cases h0 : c = 0
  · subst h0
    rw [stackAt, dif_pos rfl, stackAt, dif_pos rfl]
  · rw [stackAt, dif_neg h0, if_neg (by omega)]

theorem stackAt_odd {k c : Nat} (h : c % 2 = 1) :
    stackAt leaf cv parent k c =
      cv (tree leaf cv parent ((c - 1) * 2 ^ k) (2 ^ k)) :: stackAt leaf cv parent (k + 1) (c / 2) := by
  rw [stackAt, dif_neg (by omega), if_pos h]

/-- One more subtree leaves the stack of one more. -/
theorem pushed_stackAt (k c : Nat) :
    pushed cv parent (c + 1) (cv (tree leaf cv parent (c * 2 ^ k) (2 ^ k)))
      (stackAt leaf cv parent k c) = some (stackAt leaf cv parent k (c + 1)) := by
  induction c using Nat.strong_induction_on generalizing k with
  | _ c ih =>
    rcases Nat.mod_two_eq_zero_or_one c with heven | hodd
    · rw [pushed_odd (by omega), stackAt_odd (c := c + 1) (by omega), Nat.add_sub_cancel,
        stackAt_even heven, show (c + 1) / 2 = c / 2 by omega]
    · -- the left sibling waits on the stack
      have hhalf : (c + 1) / 2 = c / 2 + 1 := by omega
      have hstart : (c - 1) * 2 ^ k = c / 2 * 2 ^ (k + 1) := by
        rw [Nat.pow_succ, ← Nat.mul_assoc, Nat.mul_right_comm, show c / 2 * 2 = c - 1 by omega]
      have hright : c * 2 ^ k = c / 2 * 2 ^ (k + 1) + 2 ^ k := by
        rw [← hstart, ← Nat.succ_mul, show (c - 1).succ = c by omega]
      rw [stackAt_odd hodd, pushed, if_pos (by omega), hstart, hright, ← tree_double leaf cv parent,
        hhalf, ih (c / 2) (by omega) (k + 1), stackAt_even (c := c + 1) (by omega), hhalf]

/-- The stack joined onto what comes after it, at most one subtree's leaves, is the tree. -/
theorem joined_stackAt {k c n : Nat} (hpos : 0 < n) (hn : n ≤ 2 ^ k) :
    (stackAt leaf cv parent k c).foldl (fun out left => parent left (cv out))
      (tree leaf cv parent (c * 2 ^ k) n) = tree leaf cv parent 0 (c * 2 ^ k + n) := by
  induction c using Nat.strong_induction_on generalizing k n with
  | _ c ih =>
    have hmore : 2 ^ k ≤ 2 ^ (k + 1) := Nat.pow_le_pow_right (by decide) (Nat.le_succ k)
    by_cases h0 : c = 0
    · subst h0
      rw [stackAt, dif_pos rfl, List.foldl_nil, Nat.zero_mul, Nat.zero_add]
    · rcases Nat.mod_two_eq_zero_or_one c with heven | hodd
      · have hstart : c * 2 ^ k = c / 2 * 2 ^ (k + 1) := by
          rw [Nat.pow_succ, ← Nat.mul_assoc, Nat.mul_right_comm, show c / 2 * 2 = c by omega]
        rw [stackAt_even heven, hstart, ih (c / 2) (by omega) hpos (hn.trans hmore)]
      · have hstart : (c - 1) * 2 ^ k = c / 2 * 2 ^ (k + 1) := by
          rw [Nat.pow_succ, ← Nat.mul_assoc, Nat.mul_right_comm, show c / 2 * 2 = c - 1 by omega]
        have hlast : c * 2 ^ k = (c - 1) * 2 ^ k + 2 ^ k := by
          rw [← Nat.succ_mul, show (c - 1).succ = c by omega]
        rw [stackAt_odd hodd, List.foldl_cons, hlast, ← tree_join leaf cv parent hpos hn, hstart,
          ih (c / 2) (by omega) (by omega) (by rw [Nat.pow_succ]; omega), Nat.add_assoc]

/-- There is at most one subtree for each bit of the number of leaves. -/
theorem length_stackAt_le {k c j : Nat} (h : c < 2 ^ j) : (stackAt leaf cv parent k c).length ≤ j := by
  induction c using Nat.strong_induction_on generalizing k j with
  | _ c ih =>
    by_cases h0 : c = 0
    · subst h0
      rw [stackAt, dif_pos rfl]
      exact Nat.zero_le _
    · obtain ⟨i, rfl⟩ : ∃ i, j = i + 1 :=
        Nat.exists_eq_succ_of_ne_zero (by rintro rfl; simp at h; exact h0 h)
      have hhalf : c / 2 < 2 ^ i := by
        rw [Nat.pow_succ] at h
        omega
      have hrest := ih (c / 2) (by omega) (k := k + 1) hhalf
      rcases Nat.mod_two_eq_zero_or_one c with heven | hodd
      · rw [stackAt_even heven]
        omega
      · rw [stackAt_odd hodd, List.length_cons]
        omega

/-- Trees over leaves that agree are the same. -/
theorem tree_congr {leaf' : Nat → β} {i n : Nat} (hn : 0 < n)
    (h : ∀ j, i ≤ j → j < i + n → leaf j = leaf' j) :
    tree leaf cv parent i n = tree leaf' cv parent i n := by
  induction n using Nat.strong_induction_on generalizing i with
  | _ n ih =>
    by_cases hone : n ≤ 1
    · rw [tree, dif_pos hone, tree, dif_pos hone]
      exact h i le_rfl (by omega)
    · have hlt := Nat.log2_self_le (n := n - 1) (by omega)
      have hpos := Nat.two_pow_pos (Nat.log2 (n - 1))
      rw [tree_node leaf cv parent (by omega), tree_node leaf' cv parent (by omega)]
      rw [ih _ (by omega) hpos fun j hj hj' => h j hj (by omega),
        ih _ (by omega) (by omega) fun j hj hj' => h j (by omega) (by omega)]

theorem stackAt_congr {leaf' : Nat → β} {k c : Nat} (h : ∀ j < c * 2 ^ k, leaf j = leaf' j) :
    stackAt leaf cv parent k c = stackAt leaf' cv parent k c := by
  induction c using Nat.strong_induction_on generalizing k with
  | _ c ih =>
    by_cases h0 : c = 0
    · subst h0
      rw [stackAt, dif_pos rfl, stackAt, dif_pos rfl]
    · have hrest : stackAt leaf cv parent (k + 1) (c / 2) = stackAt leaf' cv parent (k + 1) (c / 2) := by
        refine ih (c / 2) (by omega) fun j hj => h j (hj.trans_le ?_)
        rw [Nat.pow_succ, Nat.mul_comm (2 ^ k), ← Nat.mul_assoc]
        exact Nat.mul_le_mul_right _ (by omega)
      rcases Nat.mod_two_eq_zero_or_one c with heven | hodd
      · rw [stackAt_even heven, stackAt_even heven, hrest]
      · have hlast : c * 2 ^ k = (c - 1) * 2 ^ k + 2 ^ k := by
          rw [← Nat.succ_mul, show (c - 1).succ = c by omega]
        rw [stackAt_odd hodd, stackAt_odd hodd, hrest,
          tree_congr (Nat.two_pow_pos k) fun j _ hj => h j (by omega)]

end NanoChrono.Hash
