import Sql.Parser.Expr
import Sql.Proofs.NameCuts
import Sql.Proofs.Pieces

/-!
# Names of functions

The name of a function is kept as one text: its parts with dots between them, each bare if it is
simple and else in double quotes. Taking that text apart gives the parts back
(`splitName_dotted`), since a dot or a quote of a part stands between quotes.
-/

namespace Sql

/-- The characters of a part as it is kept. -/
def writtenChars (part : String) : List Char := (writtenPart part).toList

theorem writtenChars_simple {part : String} (h : isSimpleName part = true) :
    writtenChars part = part.toList := by
  simp [writtenChars, writtenPart, h]

theorem writtenChars_quoted {part : String} (h : isSimpleName part = false) :
    writtenChars part = '\x22' :: (doubled ['\x22'] 0 part.toList ++ ['\x22']) := by
  simp [writtenChars, writtenPart, h, quoteName]

/-! ## Cutting at dots -/

theorem simple_plain {part : String} (h : isSimpleName part = true) :
    ∀ c ∈ part.toList, c ≠ '.' ∧ closingQuote? c = none ∧ Text.isBlank c = false := by
  obtain ⟨d, ds, hds, hd, hall⟩ := isWord_of_isSimpleName h
  intro c hc
  have hword : isWordChar c = true := by
    rw [hds] at hc
    rcases List.mem_cons.mp hc with rfl | hc
    · exact isWordChar_of_isWordStart hd
    · exact List.all_eq_true.mp hall c hc
  have hne : ∀ m ∈ marks, m ≠ '$' → c ≠ m := by
    rintro m hm hdollar rfl
    rw [(marks_wordStart c hm).2 hdollar] at hword
    simp at hword
  have hdouble : c ≠ '\x22' := hne _ (by decide) (by decide)
  have hback : c ≠ '\x60' := hne _ (by decide) (by decide)
  have hbracket : c ≠ '[' := hne _ (by decide) (by decide)
  refine ⟨hne _ (by decide) (by decide), by simp [closingQuote?, hdouble, hback, hbracket], ?_⟩
  rw [Bool.eq_false_iff]
  intro hblank
  rw [isWordChar_of_isBlank hblank] at hword
  simp at hword

theorem dotsQuoted_written (part : String) :
    dotsQuoted none (writtenChars part) = true ∧ quoteAfter none (writtenChars part) = none := by
  cases h : isSimpleName part with
  | true =>
    rw [writtenChars_simple h]
    exact dotsQuoted_plain fun c hc => ⟨(simple_plain h c hc).1, (simple_plain h c hc).2.1⟩
  | false =>
    rw [writtenChars_quoted h]
    exact dotsQuoted_doubled rfl part.toList

/-- Parts with dots between them are cut into these parts. -/
theorem dotParts_dotted {parts : List String} (hne : parts ≠ []) :
    dotParts none (dotted (parts.map writtenPart)).toList = parts.map writtenChars := by
  have hparts : ∀ t ∈ parts.map writtenChars, dotsQuoted none t = true ∧ quoteAfter none t = none :=
    List.forall_mem_map.mpr fun part _ => dotsQuoted_written part
  unfold dotted
  rw [String.toList_intercalate, List.map_map, show ".".toList = ['.'] from rfl]
  exact dotParts_intercalate (by simpa using hne) (fun t ht => (hparts t ht).1)
    fun t ht => (hparts t (List.dropLast_subset _ ht)).2

/-! ## Parts without their quotes -/

theorem unquoteName_written {part : String} (hne : part ≠ "") :
    unquoteName (String.ofList (writtenChars part)) = part := by
  cases h : isSimpleName part with
  | true =>
    unfold unquoteName
    have hplain := simple_plain h
    obtain ⟨c, cs, hcs⟩ := List.exists_cons_of_ne_nil (show part.toList ≠ [] by simpa using hne)
    rw [hcs, List.forall_mem_cons] at hplain
    obtain ⟨⟨-, hquote, hblank⟩, hrest⟩ := hplain
    have henclosed : enclosed? (c :: cs) = none := by simp [enclosed?, hquote]
    rw [writtenChars_simple h, hcs, trimBlank_cons hblank, trimEnd_plain fun d hd => (hrest d hd).2.2,
      String.toList_ofList]
    simp only
    rw [henclosed, ← hcs]
    exact String.ofList_toList
  | false =>
    rw [writtenChars_quoted h]
    exact unquoteName_quoted rfl part

/-- **Taking the name of a function apart gives the parts that it was put together from.** -/
theorem splitName_dotted {parts : List String} (hne : parts ≠ []) (hparts : ∀ p ∈ parts, p ≠ "") :
    splitName (dotted (parts.map writtenPart)) = parts := by
  unfold splitName
  rw [dotParts_dotted hne, List.map_map]
  have hmap : ∀ p ∈ parts,
      ((fun part => unquoteName (String.ofList part)) ∘ writtenChars) p = id p := by
    intro p hp
    rw [Function.comp_apply, unquoteName_written (hparts p hp), id]
  rw [List.map_congr_left hmap, List.map_id, List.filter_eq_self]
  intro p hp
  simpa using hparts p hp

end Sql
