import Sql.Filter
import Sql.Proofs.TokenTexts

/-!
# Names of parameters

Filters and pages introduce parameters of their own, some named after keys that may be any text. All
these names are such that a placeholder with the name is read back (`isParamName_paramBase`,
`IsParamName.append`).
-/

namespace Sql

/-- A simple name names a parameter. -/
theorem isParamName_of_isSimpleName {n : String} (h : isSimpleName n = true) : IsParamName n := by
  obtain ⟨c, cs, hcs, hc, hall⟩ := isWord_of_isSimpleName h
  exact ⟨c, cs, hcs, by rw [hc, Bool.true_or], hall⟩

/-- A word behind the name of a parameter keeps it one. -/
theorem IsParamName.append {n suffix : String} (hn : IsParamName n)
    (hsuffix : suffix.toList.all isWordChar = true) : IsParamName (n ++ suffix) := by
  obtain ⟨c, cs, hcs, hc, hall⟩ := hn
  refine ⟨c, cs ++ suffix.toList, ?_, hc, ?_⟩
  · rw [String.toList_append, hcs, List.cons_append]
  · rw [List.all_append, hall, hsuffix, Bool.and_self]

/-- The characters that a key keeps or gets continue a simple name. -/
theorem isSimpleChar_squash (c : Char) :
    isSimpleChar (if c.isAlphanum then c else '_') = true := by
  split
  · next h => rw [isSimpleChar, h, Bool.true_or]
  · rfl

/-- **Every key gives the name of a parameter, whatever its characters.** -/
theorem isParamName_paramBase (key : String) : IsParamName (paramBase key) := by
  unfold paramBase
  split
  · next hsimple => exact isParamName_of_isSimpleName hsimple
  · generalize hsquashed : (key.toList.map fun c => if c.isAlphanum then c else '_') = squashed
    have hall : ∀ c ∈ squashed, isSimpleChar c = true := by
      rw [← hsquashed, List.forall_mem_map]
      exact fun c _ => isSimpleChar_squash c
    cases squashed with
    | nil => exact ⟨'p', [], rfl, by decide +kernel, rfl⟩
    | cons c cs =>
      have hword : ∀ d ∈ c :: cs, isWordChar d = true :=
        fun d hd => isWordChar_of_isSimpleChar (hall d hd)
      dsimp only
      split
      · exact ⟨'p', c :: cs, String.toList_ofList, by decide +kernel, List.all_eq_true.mpr hword⟩
      · next hdigit =>
        refine ⟨c, cs, String.toList_ofList, ?_,
          List.all_eq_true.mpr fun d hd => hword d (by simp [hd])⟩
        have hc := hall c List.mem_cons_self
        rw [isWordStart_of_isSimpleStart, Bool.true_or]
        simp only [isSimpleChar, Char.isAlphanum, Bool.or_eq_true] at hc
        simp only [isSimpleStart, Bool.or_eq_true]
        rcases hc with (hc | hc) | hc
        · exact .inl hc
        · exact absurd hc hdigit
        · exact .inr hc

/-- The number of a list item continues a name. -/
theorem all_isWordChar_toString (i : Nat) : (toString i).toList.all isWordChar = true := by
  rw [List.all_eq_true]
  intro c hc
  have hdigits : (toString i).toList = Nat.toDigits 10 i := String.toList_ofList
  rw [hdigits] at hc
  exact isWordChar_of_isDigit (Nat.isDigit_of_mem_toDigits (by decide) (by decide) hc)

end Sql
