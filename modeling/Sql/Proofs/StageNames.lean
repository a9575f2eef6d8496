import Mathlib.Data.List.Pairwise
import Sql.Document.Stage
import Sql.Proofs.Grammar

/-!
# Names of stages and of generated columns

Generated names are built from the ids of entities and from depths by endings and beginnings. Where
the ids differ, so do the columns (`sameName_objectColumn_array`, `sameName_append_right`) and the
stages (`sameName_objectStage`, `sameName_of_beginnings`) that are made of them.
-/

namespace Sql

/-! ## One of a list -/

/-- Exactly one of the names is this one, up to case. -/
def IsOneOf (n : String) (ns : List String) : Prop := ns.countP (sameName n) = 1

variable {n : String} {ns ks : List String}

theorem nameIn_iff : nameIn n ns = true ↔ ∃ k ∈ ns, sameName n k = true := by
  rw [nameIn, List.any_eq_true]

theorem nameIn_eq_false : nameIn n ns = false ↔ ∀ k ∈ ns, sameName n k = false := by
  simp [nameIn]

theorem exists_mem_firstByName {α : Type} (name : α → String) {x : α} {xs : List α} (hx : x ∈ xs) :
    ∃ y ∈ firstByName name xs, sameName (name y) (name x) = true := by
  induction xs with
  | nil => simp at hx
  | cons y ys ih =>
    rw [firstByName]
    rcases List.mem_cons.mp hx with rfl | hx
    · exact ⟨x, List.mem_cons_self, sameName_refl _⟩
    · obtain ⟨z, hz, hsame⟩ := ih hx
      by_cases hyz : sameName (name y) (name z) = true
      · exact ⟨y, List.mem_cons_self, sameName_trans hyz hsame⟩
      · exact ⟨z, List.mem_cons_of_mem _ (List.mem_filter.mpr ⟨hz, by simpa using hyz⟩), hsame⟩

namespace IsOneOf

theorem congr (h : IsOneOf n ns) {k : String} (hsame : sameName k n = true) : IsOneOf k ns := by
  have hcount : ns.countP (sameName k) = ns.countP (sameName n) :=
    List.countP_congr fun a _ => by rw [sameName_congr (sameName_iff.mp hsame)]
  exact hcount.trans h

/-- Where names differ, each of them is one. -/
theorem of_mem (hns : NamesDiffer ns) (hn : n ∈ ns) : IsOneOf n ns := by
  induction ns with
  | nil => simp at hn
  | cons k ns ih =>
    obtain ⟨hk, hns⟩ := List.pairwise_cons.mp hns
    unfold IsOneOf
    rcases List.mem_cons.mp hn with rfl | hn
    · rw [List.countP_cons_of_pos (sameName_refl n), List.countP_eq_zero.mpr]
      exact fun a ha => by simp [hk a ha]
    · have hne : sameName n k = false := (sameName_comm n k).trans (hk n hn)
      rw [List.countP_cons_of_neg (by simp [hne])]
      exact ih hns hn

theorem singleton (n : String) : IsOneOf n [n] := by simp [IsOneOf]

/-- More names that differ from it change nothing. -/
theorem append (h : IsOneOf n ns) (hks : ∀ k ∈ ks, sameName n k = false) :
    IsOneOf n (ns ++ ks) := by
  have hnone : ks.countP (sameName n) = 0 :=
    List.countP_eq_zero.mpr fun k hk => by simp [hks k hk]
  rw [IsOneOf, List.countP_append, hnone]
  exact h

theorem append_left (h : IsOneOf n ks) (hns : ∀ k ∈ ns, sameName n k = false) :
    IsOneOf n (ns ++ ks) := by
  have hnone : ns.countP (sameName n) = 0 :=
    List.countP_eq_zero.mpr fun k hk => by simp [hns k hk]
  rw [IsOneOf, List.countP_append, hnone, Nat.zero_add]
  exact h

/-- Dropping other names changes nothing. -/
theorem drop (h : IsOneOf n ns) {dropped : List String} (hkeep : nameIn n dropped = false) :
    IsOneOf n (ns.filter fun c => !nameIn c dropped) := by
  have hcount : (ns.filter fun c => !nameIn c dropped).countP (sameName n)
      = ns.countP (sameName n) := by
    rw [List.countP_filter]
    refine List.countP_congr fun c _ => ?_
    rw [Bool.and_eq_true, and_iff_left_iff_imp]
    intro hsame
    rw [← nameIn_congr (sameName_iff.mp hsame), hkeep]
    rfl
  exact hcount.trans h

end IsOneOf

/-- Where names differ, names that are the same up to case are one. -/
theorem eq_of_sameName (hns : NamesDiffer ns) {a b : String} (ha : a ∈ ns) (hb : b ∈ ns)
    (h : sameName a b = true) : a = b := by
  have : Std.Symm fun a b : String => sameName a b = false :=
    ⟨fun a b h => (sameName_comm b a).trans h⟩
  by_contra hne
  have hfalse := hns.forall ha hb hne
  simp [hfalse] at h

/-! ## Columns -/

theorem foldCase_append (a b : String) : foldCase (a ++ b) = foldCase a ++ foldCase b := by
  simp [foldCase, String.toList_append, String.ofList_append]

/-- Names that differ still differ with the same ending. -/
theorem sameName_append_right {a b : String} (ending : String) (h : sameName a b = false) :
    sameName (a ++ ending) (b ++ ending) = false := by
  rw [Bool.eq_false_iff] at *
  intro hsame
  rw [sameName_iff, foldCase_append, foldCase_append] at hsame
  have hlist := congrArg String.toList hsame
  rw [String.toList_append, String.toList_append] at hlist
  exact h (sameName_iff.mpr (String.toList_injective (List.append_cancel_right hlist)))

/-- No object column is an array column: their last letters differ. -/
theorem sameName_objectColumn_array (a b : String) :
    sameName (objectColumn a) (arrayColumn b) = false := by
  have hobject : (foldCase "_json").toList.getLast? = some 'n' := by decide +kernel
  have harray : (foldCase "_array").toList.getLast? = some 'y' := by decide +kernel
  rw [Bool.eq_false_iff]
  intro h
  rw [sameName_iff, objectColumn, arrayColumn, foldCase_append, foldCase_append] at h
  have hlast := congrArg (fun s => s.toList.getLast?) h
  simp [String.toList_append, List.getLast?_append, hobject, harray] at hlast

/-! ## Stages -/

/-- Names that differ still differ with the same beginning. -/
theorem sameName_append_left {a b : String} (beginning : String) (h : sameName a b = false) :
    sameName (beginning ++ a) (beginning ++ b) = false := by
  rw [Bool.eq_false_iff] at *
  intro hsame
  rw [sameName_iff, foldCase_append, foldCase_append] at hsame
  have hlist := congrArg String.toList hsame
  rw [String.toList_append, String.toList_append] at hlist
  exact h (sameName_iff.mpr (String.toList_injective (List.append_cancel_left hlist)))

/-- In some place, the two have different letters. -/
def beginningsDiffer (p q : String) : Bool :=
  (p.toList.zip q.toList).any fun (c, d) => c.toLower != d.toLower

theorem ne_append_of_any_zip {cs ds : List Char}
    (h : ((cs.zip ds).any fun (c, d) => c.toLower != d.toLower) = true) (as bs : List Char) :
    (cs ++ as).map Char.toLower ≠ (ds ++ bs).map Char.toLower := by
  induction cs generalizing ds with
  | nil => simp at h
  | cons c cs ih =>
    cases ds with
    | nil => simp at h
    | cons d ds =>
      rw [List.zip_cons_cons, List.any_cons, Bool.or_eq_true] at h
      intro heq
      obtain ⟨hhead, htail⟩ := List.cons.inj heq
      rcases h with h | h
      · simp [hhead] at h
      · exact ih h htail

/-- Names differ that begin differently. -/
theorem sameName_of_beginnings {p q : String} (h : beginningsDiffer p q = true) (a b : String) :
    sameName (p ++ a) (q ++ b) = false := by
  rw [Bool.eq_false_iff]
  intro hsame
  rw [sameName_iff, foldCase, foldCase] at hsame
  have hlist := congrArg String.toList hsame
  rw [String.toList_ofList, String.toList_ofList, String.toList_append, String.toList_append]
    at hlist
  exact ne_append_of_any_zip h _ _ hlist

/-- The stages of each kind begin in their own way. -/
theorem stage_beginnings :
    beginningsDiffer "origin_query" "cte_object_depth_" = true
      ∧ beginningsDiffer "origin_query" "cte_array_" = true
      ∧ beginningsDiffer "origin_query" "cte_root_" = true
      ∧ beginningsDiffer "cte_object_depth_" "cte_array_" = true
      ∧ beginningsDiffer "cte_object_depth_" "cte_root_" = true
      ∧ beginningsDiffer "cte_array_" "cte_root_" = true := by
  decide +kernel

theorem sameName_originStage_object (d : Nat) : sameName originStage (objectStage d) = false :=
  sameName_of_beginnings stage_beginnings.1 "" (toString d)

theorem sameName_originStage_array (id : String) : sameName originStage (arrayStage id) = false :=
  sameName_of_beginnings stage_beginnings.2.1 "" id

theorem sameName_originStage_root (root : String) : sameName originStage (rootStage root) = false :=
  sameName_of_beginnings stage_beginnings.2.2.1 "" root

theorem sameName_objectStage_array (d : Nat) (id : String) :
    sameName (objectStage d) (arrayStage id) = false :=
  sameName_of_beginnings stage_beginnings.2.2.2.1 _ id

theorem sameName_objectStage_root (d : Nat) (root : String) :
    sameName (objectStage d) (rootStage root) = false :=
  sameName_of_beginnings stage_beginnings.2.2.2.2.1 _ root

theorem sameName_arrayStage_root (id root : String) :
    sameName (arrayStage id) (rootStage root) = false :=
  sameName_of_beginnings stage_beginnings.2.2.2.2.2 id root

/-- Digits have no case. -/
theorem foldCase_toString (d : Nat) : foldCase (toString d) = toString d := by
  have hdigits : (toString d).toList = Nat.toDigits 10 d := String.toList_ofList
  have hlower : ∀ c ∈ Nat.toDigits 10 d, c.toLower = c := by
    intro c hc
    have hdigit := Nat.isDigit_of_mem_toDigits (by decide) (by decide) hc
    have hle : c.toNat ≤ 57 := (Char.isDigit_iff_toNat.mp hdigit).2
    rcases toLower_cases c with ⟨h, -⟩ | ⟨hupper, -⟩
    · exact h
    · omega
  refine String.toList_injective ?_
  rw [foldCase, String.toList_ofList, hdigits, List.map_congr_left hlower, List.map_id']

theorem sameName_objectStage {d d' : Nat} (hne : d ≠ d') :
    sameName (objectStage d) (objectStage d') = false := by
  refine sameName_append_left _ (Bool.eq_false_iff.mpr fun hsame => hne ?_)
  rw [sameName_iff, foldCase_toString, foldCase_toString] at hsame
  have hdigits : Nat.toDigits 10 d = Nat.toDigits 10 d' := by
    simpa [toString, Nat.repr] using congrArg String.toList hsame
  have hvalue := congrArg (fun cs => Nat.ofDigitChars 10 cs 0) hdigits
  simpa [Nat.ofDigitChars_ten_toDigits] using hvalue

end Sql
