import NanoChrono.Buffer.Fields

/-! # Cutting a message into blocks

A message taken in blocks of `n`: the complete ones (`full`) and what is left over (`rest`). More of the
message only continues what is left over (`full_append`, `rest_append`), so that a state made by folding
over the complete blocks, with the rest kept aside, does not depend on how the message came in. -/

namespace NanoChrono.Hash

open Buffer

variable {α : Type}

/-- The complete blocks of a message. -/
def full (n : Nat) (l : List α) : List (List α) :=
  if _h : 0 < n ∧ n ≤ l.length then l.take n :: full n (l.drop n) else []
termination_by l.length
decreasing_by
  rw [List.length_drop]
  omega

/-- What is left after the complete blocks. -/
def rest (n : Nat) (l : List α) : List α :=
  if _h : 0 < n ∧ n ≤ l.length then rest n (l.drop n) else l
termination_by l.length
decreasing_by
  rw [List.length_drop]
  omega

theorem full_of_lt {n : Nat} {l : List α} (h : l.length < n) : full n l = [] := by
  rw [full, dif_neg (by omega)]

theorem rest_of_lt {n : Nat} {l : List α} (h : l.length < n) : rest n l = l := by
  rw [rest, dif_neg (by omega)]

/-- A block in front is a complete one. -/
theorem full_cons {n : Nat} {b l : List α} (hn : 0 < n) (hb : b.length = n) :
    full n (b ++ l) = b :: full n l := by
  rw [full, dif_pos ⟨hn, by rw [List.length_append]; omega⟩, List.take_left' hb, List.drop_left' hb]

theorem rest_cons {n : Nat} {b l : List α} (hn : 0 < n) (hb : b.length = n) :
    rest n (b ++ l) = rest n l := by
  rw [rest, dif_pos ⟨hn, by rw [List.length_append]; omega⟩, List.drop_left' hb]

/-- A message that is one block. -/
theorem full_self {n : Nat} {b : List α} (hn : 0 < n) (hb : b.length = n) : full n b = [b] := by
  have h := full_cons (l := []) hn hb
  rwa [List.append_nil, full_of_lt (l := []) hn] at h

theorem rest_self {n : Nat} {b : List α} (hn : 0 < n) (hb : b.length = n) : rest n b = [] := by
  have h := rest_cons (l := []) hn hb
  rwa [List.append_nil, rest_of_lt (l := []) hn] at h

/-- The complete blocks and the rest are the message. -/
theorem full_rest (n : Nat) (l : List α) : (full n l).flatten ++ rest n l = l := by
  fun_induction full n l with
  | case1 l h ih =>
    rw [List.flatten_cons, rest, dif_pos h, List.append_assoc, ih, List.take_append_drop]
  | case2 l h => rw [rest, dif_neg h, List.flatten_nil, List.nil_append]

theorem length_of_mem_full {n : Nat} {l b : List α} (h : b ∈ full n l) : b.length = n := by
  fun_induction full n l with
  | case1 l hn ih =>
    rcases List.mem_cons.1 h with rfl | h
    · rw [List.length_take]
      omega
    · exact ih h
  | case2 => cases h

theorem length_rest_lt {n : Nat} (hn : 0 < n) (l : List α) : (rest n l).length < n := by
  fun_induction rest n l with
  | case1 l h ih => exact ih
  | case2 l h => omega

/-- The length of a message in complete blocks. -/
theorem length_flatten_full (n : Nat) (l : List α) :
    (full n l).flatten.length = n * (full n l).length := by
  rw [List.length_flatten, List.map_congr_left fun b hb => length_of_mem_full hb, List.map_const',
    List.sum_replicate_nat, Nat.mul_comm]

/-- More of a message continues what was left over. -/
theorem full_append (n : Nat) (l m : List α) : full n (l ++ m) = full n l ++ full n (rest n l ++ m) := by
  fun_induction full n l with
  | case1 l h ih =>
    have hlen : (l.take n).length = n := by rw [List.length_take]; omega
    have hsplit : l ++ m = l.take n ++ (l.drop n ++ m) := by
      rw [← List.append_assoc, List.take_append_drop]
    rw [hsplit, full_cons h.1 hlen, ih, List.cons_append]
    rw [show rest n l = rest n (l.drop n) by rw [rest, dif_pos h]]
  | case2 l h => rw [rest, dif_neg h, List.nil_append]

theorem rest_append (n : Nat) (l m : List α) : rest n (l ++ m) = rest n (rest n l ++ m) := by
  fun_induction full n l with
  | case1 l h ih =>
    have hlen : (l.take n).length = n := by rw [List.length_take]; omega
    have hsplit : l ++ m = l.take n ++ (l.drop n ++ m) := by
      rw [← List.append_assoc, List.take_append_drop]
    rw [hsplit, rest_cons h.1 hlen, ih]
    rw [show rest n l = rest n (l.drop n) by rw [rest, dif_pos h]]
  | case2 l h => rw [show rest n l = l by rw [rest, dif_neg h]]

/-- Whole blocks in front are complete ones. -/
theorem full_flatten_append {n : Nat} (hn : 0 < n) {bs : List (List α)} (h : ∀ b ∈ bs, b.length = n)
    (l : List α) : full n (bs.flatten ++ l) = bs ++ full n l := by
  induction bs with
  | nil => rfl
  | cons b bs ih =>
    rw [List.flatten_cons, List.append_assoc, full_cons hn (h b (List.mem_cons_self ..)),
      ih fun x hx => h x (List.mem_cons_of_mem _ hx), List.cons_append]

end NanoChrono.Hash
