import Sql.Proofs.SoundEdits
import Sql.Proofs.TablesInScope

/-!
# Tables of combined statements

Combining moves the CTEs of all statements into one WITH clause, where more of them are in scope:
in the body of every statement all of them, in the body of a CTE those of the statements before and,
as soon as one clause is recursive, all of them. A bare name that was that of a table may so become
that of a CTE.

* `MentionedAt` lists the mentions of tables in the statements, each with the names of the CTEs that
  it sees in the combined statement.
* `combine_tables`: the combined statement reads the tables of the statements, without those all of
  whose mentions are taken by a CTE.
-/

namespace Sql

/-- The names of the CTEs of all statements, in order. -/
def hoistedNames (statements : List Statement) : List String :=
  (statements.flatMap Statement.ctes).map Cte.name

/-- A table that one of the statements mentions, and the names of the CTEs that the place of the
mention sees when the statements are combined. -/
inductive MentionedAt (statements : List Statement) : TableName → List String → Prop
  /-- In the body of a statement, which then sees all CTEs. -/
  | body {s : Statement} {m : TableName} : s ∈ statements → m ∈ s.body.tablesIn (Scope.root s) →
      MentionedAt statements m (hoistedNames statements)
  /-- In the body of a CTE, which then sees the CTEs before it; all CTEs if a clause is recursive. -/
  | cte {before after : List Statement} {s : Statement} {ctes ctes' : List Cte} {c : Cte}
      {m : TableName} : statements = before ++ s :: after → s.ctes = ctes ++ c :: ctes' →
      m ∈ c.statement.tablesIn ((Scope.root s).ofCte s.isRecursive c) →
      MentionedAt statements m
        (if statements.any Statement.isRecursive then hoistedNames statements
          else hoistedNames before ++ ctes.map Cte.name)

/-! ## What combining does to CTEs and bodies -/

/-- Parentheses change nothing for the tables of a body. -/
theorem Body.tablesIn_inParens (b : Body) (scope : Scope) :
    b.inParens.tablesIn scope = b.tablesIn scope := by
  rw [inParens, Body.tablesIn_nested, Statement.tablesIn_eq]
  rfl

/-- The combined statement has the CTEs of the statements, and its body has their bodies. -/
structure CombinedOf (statements : List Statement) (t : Statement) : Prop where
  ctes : t.ctes = statements.flatMap Statement.ctes
  recursive : ∀ c ∈ t.ctes, t.isRecursive = statements.any Statement.isRecursive
  body : ∀ scope, t.body.tablesIn scope = statements.flatMap fun s => s.body.tablesIn scope

theorem combinedOf_of_combine {statements : List Statement} {op : SetOperator} {t : Statement}
    (h : combine statements op = .ok t) : CombinedOf statements t := by
  rcases combine_eq_ok h with rfl | ⟨s, rest, rfl, -, rfl⟩
  · -- one statement is kept as it is
    exact ⟨by simp, fun c hc => by simp, fun scope => by simp⟩
  · -- with no CTEs at all there is no clause, and then nothing that could be recursive
    refine ⟨Statement.ctes_withOf _ _ _, fun c hc => ?_, fun scope => ?_⟩
    · rw [Statement.ctes_withOf] at hc
      exact Statement.isRecursive_withOf _ (List.ne_nil_of_mem hc) _
    · exact flatMap_combinedBody (fun b => b.tablesIn_inParens scope)
        (fun left op right => Body.tablesIn_setOp scope left right op) op s rest

/-! ## What the parts see -/

/-- The names that the body of a CTE sees in a statement that stands alone. -/
theorem nameIn_names_ofCte {s : Statement} {before after : List Cte} {c : Cte}
    (hsplit : s.ctes = before ++ c :: after) (hdiffer : NamesDiffer (s.ctes.map Cte.name))
    (n : String) :
    nameIn n ((Scope.root s).ofCte s.isRecursive c).names
      = nameIn n (if s.isRecursive then s.ctes.map Cte.name else before.map Cte.name) := by
  have hshows := Scope.shows_empty.ofCte hsplit hdiffer n
  rw [List.append_nil] at hshows
  rw [← apply_ite (List.map Cte.name)]
  exact hshows

theorem Scope.SeesAlso.of_names {names : List String} {a b : Scope}
    (hb : ∀ n, nameIn n b.names = nameIn n names)
    (ha : ∀ n, nameIn n a.names = true → nameIn n names = true) : a.SeesAlso names b := by
  intro n
  rw [hb n]
  cases hn : nameIn n a.names with
  | true => rw [ha n hn, Bool.true_or]
  | false => rw [Bool.false_or]

theorem nameIn_of_subset {ns ks : List String} (h : ∀ n ∈ ns, n ∈ ks) {n : String}
    (hn : nameIn n ns = true) : nameIn n ks = true := by
  obtain ⟨k, hk, hsame⟩ := nameIn_iff.mp hn
  exact nameIn_iff.mpr ⟨k, h k hk, hsame⟩

variable {statements : List Statement} {t : Statement}

/-- In the combined statement the body of a statement sees all CTEs. -/
theorem CombinedOf.sees_root (h : CombinedOf statements t) {s : Statement} (hs : s ∈ statements) :
    (Scope.root s).SeesAlso (hoistedNames statements) (Scope.root t) := by
  refine .of_names (fun n => ?_) fun n hn => ?_
  · rw [Scope.names_root, nameIn_reverse, h.ctes]
    rfl
  · rw [Scope.names_root, nameIn_reverse] at hn
    refine nameIn_of_subset (fun k hk => ?_) hn
    obtain ⟨c, hc, rfl⟩ := List.mem_map.mp hk
    exact List.mem_map_of_mem (List.mem_flatMap.mpr ⟨s, hs, hc⟩)

/-- What the body of a CTE sees in the combined statement, beside what it sees in its own. -/
theorem CombinedOf.sees_cte (h : CombinedOf statements t)
    (hdiffer : NamesDiffer (t.ctes.map Cte.name)) {before after : List Statement} {s : Statement}
    (hs : NamesDiffer (s.ctes.map Cte.name)) (hstatements : statements = before ++ s :: after)
    {ctes ctes' : List Cte} {c : Cte} (hctes : s.ctes = ctes ++ c :: ctes') :
    ((Scope.root s).ofCte s.isRecursive c).SeesAlso
      (if statements.any Statement.isRecursive then hoistedNames statements
        else hoistedNames before ++ ctes.map Cte.name)
      ((Scope.root t).ofCte t.isRecursive c) := by
  have hmem : s ∈ statements := by simp [hstatements]
  -- the place of the CTE in the common clause
  have hsplit : t.ctes = (before.flatMap Statement.ctes ++ ctes)
      ++ c :: (ctes' ++ after.flatMap Statement.ctes) := by
    rw [h.ctes, hstatements, List.flatMap_append, List.flatMap_cons, hctes]
    simp
  have hrecursive : t.isRecursive = statements.any Statement.isRecursive :=
    h.recursive c (by simp [hsplit])
  have hall : ∀ k ∈ s.ctes.map Cte.name, k ∈ hoistedNames statements := by
    intro k hk
    obtain ⟨d, hd, rfl⟩ := List.mem_map.mp hk
    exact List.mem_map_of_mem (List.mem_flatMap.mpr ⟨s, hmem, hd⟩)
  refine .of_names (fun n => ?_) fun n hn => ?_
  · rw [nameIn_names_ofCte hsplit hdiffer, hrecursive, h.ctes, List.map_append]
    rfl
  · rw [nameIn_names_ofCte hctes hs] at hn
    cases hany : statements.any Statement.isRecursive with
    | true =>
      rw [if_pos rfl]
      refine nameIn_of_subset (fun k hk => ?_) hn
      split at hk
      · exact hall k hk
      · refine hall k ?_
        rw [hctes, List.map_append]
        exact List.mem_append_left _ hk
    | false =>
      -- no clause is recursive, so the body saw the CTEs before it and no others
      have hown : s.isRecursive = false := by
        rw [Bool.eq_false_iff]
        intro hown
        rw [List.any_eq_false] at hany
        exact hany s hmem hown
      rw [hown, if_neg Bool.false_ne_true] at hn
      rw [if_neg Bool.false_ne_true, nameIn_append, hn, Bool.or_true]

/-! ## Tables -/

theorem Statement.mem_tablesIn_empty {s : Statement} {m : TableName} :
    m ∈ s.tablesIn Scope.empty
      ↔ (∃ c ∈ s.ctes, m ∈ c.statement.tablesIn ((Scope.root s).ofCte s.isRecursive c))
        ∨ m ∈ s.body.tablesIn (Scope.root s) := by
  rw [Statement.tablesIn_eq, List.mem_append, List.mem_flatMap]
  rfl

/-- The mentions are those of the statements, each by itself. -/
theorem exists_mentionedAt_iff {m : TableName} :
    (∃ seen, MentionedAt statements m seen) ↔ ∃ s ∈ statements, m ∈ s.tablesIn Scope.empty := by
  constructor
  · rintro ⟨seen, hm⟩
    cases hm with
    | @body s _ hs hm => exact ⟨s, hs, Statement.mem_tablesIn_empty.mpr (.inr hm)⟩
    | @cte before after s ctes ctes' c _ hstatements hctes hm =>
      exact ⟨s, by simp [hstatements],
        Statement.mem_tablesIn_empty.mpr (.inl ⟨c, by simp [hctes], hm⟩)⟩
  · rintro ⟨s, hs, hm⟩
    rcases Statement.mem_tablesIn_empty.mp hm with ⟨c, hc, hm⟩ | hm
    · obtain ⟨before, after, hstatements⟩ := List.append_of_mem hs
      obtain ⟨ctes, ctes', hctes⟩ := List.append_of_mem hc
      exact ⟨_, .cte hstatements hctes hm⟩
    · exact ⟨_, .body hs hm⟩

/-- The combined statement mentions as tables what no CTE in sight takes. -/
theorem CombinedOf.mem_tablesIn (h : CombinedOf statements t)
    (hdiffer : NamesDiffer (t.ctes.map Cte.name))
    (hall : ∀ s ∈ statements, NamesDiffer (s.ctes.map Cte.name)) {m : TableName} :
    m ∈ t.tablesIn Scope.empty
      ↔ ∃ seen, MentionedAt statements m seen ∧ m.takenBy seen = false := by
  rw [Statement.mem_tablesIn_empty]
  -- in the combined statement each part sees its own CTEs and those of the other statements
  constructor
  · rintro (⟨c, hc, hm⟩ | hm)
    · rw [h.ctes] at hc
      obtain ⟨s, hs, hc⟩ := List.mem_flatMap.mp hc
      obtain ⟨before, after, hstatements⟩ := List.append_of_mem hs
      obtain ⟨ctes, ctes', hctes⟩ := List.append_of_mem hc
      have hsees := h.sees_cte hdiffer (hall s hs) hstatements hctes
      rw [c.statement.tablesIn_seesAlso hsees] at hm
      obtain ⟨hm, htaken⟩ := mem_untaken.mp hm
      exact ⟨_, .cte hstatements hctes hm, htaken⟩
    · rw [h.body] at hm
      obtain ⟨s, hs, hm⟩ := List.mem_flatMap.mp hm
      rw [s.body.tablesIn_seesAlso (h.sees_root hs)] at hm
      obtain ⟨hm, htaken⟩ := mem_untaken.mp hm
      exact ⟨_, .body hs hm, htaken⟩
  · rintro ⟨seen, hm, htaken⟩
    cases hm with
    | @body s _ hs hm =>
      refine .inr ?_
      rw [h.body, List.mem_flatMap]
      refine ⟨s, hs, ?_⟩
      rw [s.body.tablesIn_seesAlso (h.sees_root hs)]
      exact mem_untaken.mpr ⟨hm, htaken⟩
    | @cte before after s ctes ctes' c _ hstatements hctes hm =>
      have hs : s ∈ statements := by simp [hstatements]
      refine .inl ⟨c, ?_, ?_⟩
      · rw [h.ctes]
        exact List.mem_flatMap.mpr ⟨s, hs, by simp [hctes]⟩
      · have hsees := h.sees_cte hdiffer (hall s hs) hstatements hctes
        rw [c.statement.tablesIn_seesAlso hsees]
        exact mem_untaken.mpr ⟨hm, htaken⟩

/-- **The tables of a combined statement** are those of the statements, without the tables all of
whose mentions see a CTE of their name. -/
theorem combine_tables {op : SetOperator} (hread : ∀ s ∈ statements, ∃ text, parse text = .ok s)
    (h : combine statements op = .ok t) (n : String) :
    ((∃ s ∈ statements, nameIn n (s.tables.map TableName.qualified) = true)
        ↔ ∃ m seen, MentionedAt statements m seen ∧ sameName n m.qualified = true)
      ∧ (nameIn n (t.tables.map TableName.qualified) = true
        ↔ ∃ m seen, MentionedAt statements m seen ∧ sameName n m.qualified = true
          ∧ m.takenBy seen = false) := by
  have hsound : ∀ s ∈ statements, s.AllSound False := by
    intro s hs
    obtain ⟨text, hparse⟩ := hread s hs
    exact Statement.allSound_of_wf s (wf_of_parse hparse)
  have hdiffers : ∀ s : Statement, s.AllSound False → NamesDiffer (s.ctes.map Cte.name) :=
    fun s hs => (Statement.allSound_iff.mp hs).1.1.names_differ
  -- combining sound statements gives a sound one, so no name is defined twice in the common clause
  have hmem : ∀ m, m ∈ t.tablesIn Scope.empty
      ↔ ∃ seen, MentionedAt statements m seen ∧ m.takenBy seen = false := fun m =>
    (combinedOf_of_combine h).mem_tablesIn (hdiffers t (combine_sound hsound h))
      fun s hs => hdiffers s (hsound s hs)
  constructor
  · constructor
    · rintro ⟨s, hs, hn⟩
      obtain ⟨m, hm, hsame⟩ := Statement.nameIn_tables.mp hn
      obtain ⟨seen, hmention⟩ := exists_mentionedAt_iff.mpr ⟨s, hs, hm⟩
      exact ⟨m, seen, hmention, hsame⟩
    · rintro ⟨m, seen, hmention, hsame⟩
      obtain ⟨s, hs, hm⟩ := exists_mentionedAt_iff.mp ⟨seen, hmention⟩
      exact ⟨s, hs, Statement.nameIn_tables.mpr ⟨m, hm, hsame⟩⟩
  · rw [Statement.nameIn_tables]
    constructor
    · rintro ⟨m, hm, hsame⟩
      obtain ⟨seen, hmention, htaken⟩ := (hmem m).mp hm
      exact ⟨m, seen, hmention, hsame, htaken⟩
    · rintro ⟨m, seen, hmention, hsame, htaken⟩
      exact ⟨m, (hmem m).mpr ⟨seen, hmention, htaken⟩, hsame⟩

/-- Two statements that read a table `t`, the first in a CTE of that name; and what is left when they
are combined. -/
theorem combine_namesakes : ∃ s₁ s₂ t,
    parse "with t as (select x from t) select x from t" = .ok s₁
      ∧ parse "with recursive r as (select d.x from t, db.t as d) select x from r" = .ok s₂
      ∧ combine [s₁, s₂] .union = .ok t
      ∧ s₁.tables = [⟨[], "t"⟩] ∧ s₂.tables = [⟨[], "t"⟩, ⟨["db"], "t"⟩]
      ∧ t.tables = [⟨["db"], "t"⟩] := by
  obtain ⟨s₁, h₁, h⟩ := exists_ok_of_any
    (show (parse "with t as (select x from t) select x from t").toOption.any (fun s₁ =>
      (parse "with recursive r as (select d.x from t, db.t as d) select x from r").toOption.any
        fun s₂ => (combine [s₁, s₂] .union).toOption.any fun t =>
          decide (s₁.tables = [⟨[], "t"⟩] ∧ s₂.tables = [⟨[], "t"⟩, ⟨["db"], "t"⟩]
            ∧ t.tables = [⟨["db"], "t"⟩])) = true by decide +kernel)
  obtain ⟨s₂, h₂, h⟩ := exists_ok_of_any h
  obtain ⟨t, ht, h⟩ := exists_ok_of_any h
  exact ⟨s₁, s₂, t, h₁, h₂, ht, of_decide_eq_true h⟩

/-- The qualified table stays, and every mention of the bare one is taken. -/
theorem combine_tables_namesakes : ∃ s₁ s₂ t,
    parse "with t as (select x from t) select x from t" = .ok s₁
      ∧ parse "with recursive r as (select d.x from t, db.t as d) select x from r" = .ok s₂
      ∧ combine [s₁, s₂] .union = .ok t
      ∧ (∃ m seen, MentionedAt [s₁, s₂] m seen ∧ sameName "DB.T" m.qualified = true
        ∧ m.takenBy seen = false)
      ∧ (∃ m seen, MentionedAt [s₁, s₂] m seen ∧ sameName "t" m.qualified = true)
      ∧ ∀ m seen, MentionedAt [s₁, s₂] m seen → sameName "t" m.qualified = true →
        m.takenBy seen = true := by
  obtain ⟨s₁, s₂, t, h₁, h₂, ht, htables, -, hcombined⟩ := combine_namesakes
  have hread : ∀ s ∈ [s₁, s₂], ∃ text, parse text = .ok s :=
    List.forall_mem_cons.mpr ⟨⟨_, h₁⟩, List.forall_mem_singleton.mpr ⟨_, h₂⟩⟩
  have hqualified : nameIn "DB.T" (t.tables.map TableName.qualified) = true := by
    rw [hcombined]
    decide +kernel
  have hbare : nameIn "t" (t.tables.map TableName.qualified) = false := by
    rw [hcombined]
    decide +kernel
  have hreads : nameIn "t" (s₁.tables.map TableName.qualified) = true := by
    rw [htables]
    decide +kernel
  refine ⟨s₁, s₂, t, h₁, h₂, ht, (combine_tables hread ht "DB.T").2.mp hqualified,
    (combine_tables hread ht "t").1.mp ⟨s₁, by simp, hreads⟩, fun m seen hm hsame => ?_⟩
  by_contra htaken
  have hstays := (combine_tables hread ht "t").2.mpr
    ⟨m, seen, hm, hsame, Bool.eq_false_iff.mpr htaken⟩
  simp [hbare] at hstays

/-- **Combining may take tables away.** The second statement reads the table `t`, and in the combined
statement the CTE of the first one; and as the second is recursive, that CTE reads itself. -/
theorem combine_takes_table : ∃ s₁ s₂ t,
    parse "with t as (select x from t) select x from t" = .ok s₁
      ∧ parse "with recursive r as (select d.x from t, db.t as d) select x from r" = .ok s₂
      ∧ combine [s₁, s₂] .union = .ok t
      ∧ (∀ s ∈ [s₁, s₂], nameIn "t" (s.tables.map TableName.qualified) = true)
      ∧ nameIn "t" (t.tables.map TableName.qualified) = false := by
  obtain ⟨s₁, s₂, t, h₁, h₂, ht, htables₁, htables₂, hcombined⟩ := combine_namesakes
  refine ⟨s₁, s₂, t, h₁, h₂, ht, ?_, ?_⟩
  · refine List.forall_mem_cons.mpr ⟨?_, List.forall_mem_singleton.mpr ?_⟩
    · rw [htables₁]
      decide +kernel
    · rw [htables₂]
      decide +kernel
  · rw [hcombined]
    decide +kernel

end Sql
