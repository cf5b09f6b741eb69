import NanoChrono.Json.RoundTrip

/-! # One spelling per document

Signatures and digests are taken over the canonical text, so what it identifies must be the document:
two documents have the same canonical text just when they are the same up to the order of their
members (`canonical_spelling`). -/

namespace NanoChrono.Json

/-- Members in the order of their keys' bytes. -/
def KeyLe (a b : List Char × Owned) : Prop := (compare (Utf8.encode a.1) (Utf8.encode b.1)).isLE = true

theorem KeyLe.antisymm {a b : List Char × Owned} (hab : KeyLe a b) (hba : KeyLe b a) : a.1 = b.1 :=
  Utf8.encode_injective (Std.LawfulEqCmp.eq_of_compare (Std.OrientedCmp.isLE_antisymm hab hba))

/-- Members that are in order stay as they are. -/
theorem sortMembers_of_sorted {members : List (List Char × Owned)} (h : members.Pairwise KeyLe) :
    sortMembers members = members :=
  List.mergeSort_of_pairwise h

/-- Members with keys of their own are sorted the same way, however they were inserted. -/
theorem sortMembers_congr {members members' : List (List Char × Owned)} (hperm : members.Perm members')
    (hkeys : (members.map Prod.fst).Nodup) : sortMembers members = sortMembers members' := by
  have hmem : ∀ a ∈ sortMembers members, a ∈ members := fun a => (sortMembers_perm members).mem_iff.1
  have hmem' : ∀ b ∈ sortMembers members', b ∈ members := fun b hb =>
    hperm.mem_iff.2 ((sortMembers_perm members').mem_iff.1 hb)
  have hsame : (sortMembers members).Perm (sortMembers members') :=
    (sortMembers_perm members).trans (hperm.trans (sortMembers_perm members').symm)
  refine hsame.eq_of_pairwise (fun a b ha hb hab hba => ?_) (sortMembers_sorted members) (sortMembers_sorted members')
  exact List.inj_on_of_nodup_map hkeys (hmem a ha) (hmem' b hb) (KeyLe.antisymm hab hba)

section Written

variable {style : Style} {j j' : Owned}

/-- A text says which value was written, up to what the style reorders. -/
theorem reordered_of_write (h : j.write style = j'.write style) : j.reordered style = j'.reordered style := by
  have htext := isText_write style j
  have htree : j.ast style = j'.ast style := htext.unique (h ▸ isText_write style j')
  obtain ⟨w, b, w', -, hw', -, hd⟩ := htext
  -- Navigation through the one text reads both values.
  have hends : Ends w' := by simpa using hw'.ends Ends.nil
  have hstands : Stands ⟨w.length, w.length + b.length, b ++ w'⟩ (j.ast style) b w' := ⟨rfl, rfl, hd, hends⟩
  exact Option.some.inj (hstands.toJson.symm.trans (htree ▸ hstands).toJson)

/-- Sorting before writing changes nothing where the writer sorts. -/
theorem writeInto_sorted (hsort : style.sortKeys = true) (j : Owned) (indent : Nat) :
    j.sorted.writeInto style indent = j.writeInto style indent := by
  induction j using Owned.ind generalizing indent with
  | null | bool _ | int _ | str _ => rw [Owned.sorted]
  | arr items ih =>
    rw [Owned.sorted, attach_map items Owned.sorted, Owned.writeInto_arr, Owned.writeInto_arr, List.map_map]
    simp only [List.map_eq_nil_iff]
    congr 3
    exact List.map_congr_left fun x hx => congrArg (newline style (indent + 1) ++ ·) (ih x hx (indent + 1))
  | obj members ih =>
    have hsorted : (sortMembers members).map (fun m => (m.1, m.2.sorted)) |>.Pairwise KeyLe :=
      List.pairwise_map.mpr (sortMembers_sorted members)
    have hempty : sortMembers members = [] ↔ members = [] := by
      rw [← List.length_eq_zero_iff, (sortMembers_perm members).length_eq, List.length_eq_zero_iff]
    rw [Owned.sorted, attach_map (sortMembers members) fun m => (m.1, m.2.sorted), Owned.writeInto_obj,
      Owned.writeInto_obj, order, if_pos hsort, order, if_pos hsort, sortMembers_of_sorted hsorted, List.map_map]
    simp only [List.map_eq_nil_iff, hempty]
    congr 3
    refine List.map_congr_left fun m hm => ?_
    have hwritten := ih m ((sortMembers_perm members).mem_iff.1 hm) (indent + 1)
    simp only [Function.comp, hwritten]

end Written

/-- Two documents have the same canonical text just when they are the same with their members sorted; as they are,
just when they are the same; and the members of an object may be inserted in any order, if no key is there twice. -/
theorem canonical_spelling (j j' : Owned) :
    (j.write .CANONICAL = j'.write .CANONICAL ↔ j.sorted = j'.sorted) ∧
      (j.write .PRETTY = j'.write .PRETTY ↔ j = j') ∧
      ∀ members members', j = .obj members → j' = .obj members' → members.Perm members' →
        (members.map Prod.fst).Nodup → j.write .CANONICAL = j'.write .CANONICAL := by
  have hcanonical : j.sorted = j'.sorted → j.write .CANONICAL = j'.write .CANONICAL := fun h => by
    rw [Owned.write, Owned.write, ← writeInto_sorted rfl j, ← writeInto_sorted rfl j', h]
  refine ⟨⟨reordered_of_write, hcanonical⟩, ⟨reordered_of_write, fun h => h ▸ rfl⟩, ?_⟩
  rintro members members' rfl rfl hperm hkeys
  refine hcanonical ?_
  rw [Owned.sorted, Owned.sorted, attach_map (sortMembers members) fun m => (m.1, m.2.sorted),
    attach_map (sortMembers members') fun m => (m.1, m.2.sorted), sortMembers_congr hperm hkeys]

end NanoChrono.Json
