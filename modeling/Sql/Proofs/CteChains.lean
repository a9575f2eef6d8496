import Sql.Proofs.InferredColumns
import Sql.Proofs.PrintedText
import Sql.Proofs.ReadTree

/-!
# Chains of CTEs

Each CTE of a chain gives what the one before it gives. A select next to such a chain is a statement
that has a text, however long the chain is (`exists_parse_besideChain`), and it can name its own
column (`selectable_besideChain`). The columns of the last CTE lie as deep as the chain is long, so
they are refused for their depth once the chain is longer than the limit (`columnsOf_chainCte`,
`outputColumns_chainCte`).
-/

namespace Sql

/-! ## A chain and its text -/

/-- The name of one of a chain of CTEs. -/
def chainName (k : Nat) : String := String.ofList (List.replicate (k + 1) 'c')

/-- One of a chain of CTEs: the first gives a column, and each other one gives what the one before
it gives. -/
def chainCte : Nat → Cte
  | 0 => ⟨chainName 0, [], .ofSelect (.simple [⟨.literal .null, some "x"⟩] none)⟩
  | k + 1 =>
    ⟨chainName (k + 1), [],
      .ofSelect (.simple [.bare (.star none)] (some (.table [] (chainName k) none)))⟩

/-- A select of one column of a table. -/
def idOfTable : Select := .simple [.bare (.name "id")] (some (.table [] "t" none))

/-- A select of a column of a table, next to a chain of CTEs. -/
def besideChain (n : Nat) : Statement :=
  ⟨some ⟨false, (List.range n).map chainCte⟩, .select idOfTable⟩

theorem chainCte_name (k : Nat) : (chainCte k).name = chainName k := by
  cases k <;> rfl

theorem chainCte_columns (k : Nat) : (chainCte k).columns = [] := by
  cases k <;> rfl

theorem sameName_chainName {j k : Nat} (h : j < k) :
    sameName (chainName j) (chainName k) = false := by
  rw [Bool.eq_false_iff]
  intro hsame
  rw [sameName_iff, foldCase, foldCase] at hsame
  have hlength := congrArg List.length (String.ofList_injective hsame)
  simp [chainName] at hlength
  omega

theorem chainName_ne_empty (k : Nat) : chainName k ≠ "" := by
  intro h
  have hlist := congrArg String.toList h
  rw [chainName, String.toList_ofList, List.replicate_succ] at hlist
  simp at hlist

theorem wf_chainCte (k : Nat) {m : Nat} (hm : 0 < m) : (chainCte k).name ≠ ""
    ∧ AreNames (chainCte k).columns ∧ (chainCte k).statement.Wf True True m := by
  refine ⟨chainCte_name k ▸ chainName_ne_empty k, by simp [chainCte_columns, AreNames], ?_⟩
  cases k with
  | zero =>
    simp [chainCte, Statement.ofSelect, Select.simple, Statement.Wf, withWf, Body.Wf, Select.Wf,
      itemsWf, Expr.Wf, Literal.Wf, Expr.isStar, IsAlias, fromWf, joinsWf, NamesDiffer, optionWf,
      exprsWf, orderWf, hm]
  | succ k =>
    simp [chainCte, chainName_ne_empty, Statement.ofSelect, Select.simple, SelectItem.bare,
      Statement.Wf, withWf, Body.Wf, Select.Wf, itemsWf, Expr.Wf, IsAlias, AreNames, fromWf,
      Source.Wf, joinsWf, NamesDiffer, optionWf, exprsWf, orderWf, hm]

theorem wf_besideChain (n : Nat) {m : Nat} (hm : 1 < m) :
    (besideChain (n + 1)).Wf True True m := by
  have hctes : ctesWf True True m ((List.range (n + 1)).map chainCte) := by
    rw [ctesWf_iff, List.forall_mem_map]
    intro k _
    obtain ⟨hname, hcolumns, hbody⟩ := wf_chainCte k (show 0 < m - 1 by omega)
    exact ⟨hname, hcolumns, fun _ => by omega, hbody⟩
  have hdiffer : NamesDiffer (((List.range (n + 1)).map chainCte).map Cte.name) := by
    unfold NamesDiffer
    rw [List.map_map, List.pairwise_map]
    refine List.pairwise_lt_range.imp fun h => ?_
    rw [Function.comp, Function.comp, chainCte_name, chainCte_name]
    exact sameName_chainName h
  rw [besideChain, Statement.Wf, withWf]
  refine ⟨⟨by simp, hctes, hdiffer⟩, ?_⟩
  simp [idOfTable, Select.simple, SelectItem.bare, Expr.name, Body.Wf, Select.Wf, itemsWf, Expr.Wf,
    AreNames, IsAlias, fromWf, Source.Wf, joinsWf, NamesDiffer, optionWf, exprsWf, orderWf]
  omega

/-- A long chain of CTEs has a text. -/
theorem exists_parse_besideChain (n : Nat) :
    ∃ text, parse text = .ok (besideChain (n + 1)) := by
  have hwf := wf_besideChain n (show 1 < Parser.maxNesting - 1 by decide)
  have hconfig : Dialect.generic.config.Readable := ⟨.inl rfl, .inl rfl, rfl, rfl⟩
  obtain ⟨out, -, hlex⟩ := (Statement.spells hconfig 0 _ hwf).format hconfig
  rcases parse_of_lex hwf hlex with h | ⟨h, -⟩
  · exact ⟨out.sql, h⟩
  · exact absurd trivial h

/-! ## The columns of a chain -/

/-- The entries of the first CTEs of a chain, the last one innermost. -/
def chainEntries (n : Nat) : List CteEntry :=
  ((List.range n).map fun k => ⟨chainCte k, false⟩).reverse

theorem chainEntries_succ (n : Nat) :
    chainEntries (n + 1) = ⟨chainCte n, false⟩ :: chainEntries n := by
  simp [chainEntries, List.range_succ]

theorem entries_root_besideChain (n : Nat) :
    (Scope.root (besideChain n)).entries = chainEntries n := by
  simp [Scope.root, Scope.enter, besideChain, Statement.ctes, Statement.isRecursive, Scope.empty,
    chainEntries, List.map_map, Function.comp_def]

theorem find?_chainEntries (n depth : Nat) :
    (Scope.mk (chainEntries (n + 1)) depth).find? (chainName n)
      = some (⟨chainCte n, false⟩, ⟨chainEntries n, depth + 1⟩) := by
  rw [Scope.find?, chainEntries_succ, findEntry, if_pos]
  · rfl
  · show sameName (chainCte n).name (chainName n) = true
    rw [chainCte_name, sameName_refl]

theorem columnsOf_chainCte {lookup : Option Lookup} {k depth : Nat}
    (h : outputColumns lookup ⟨chainEntries k, depth + 1⟩ (chainCte k).statement
      = .error Call.tooDeep) (q : Select) :
    columnsOf lookup ⟨chainEntries (k + 1), depth⟩ q (.table [] (chainName k) none)
      = .error Call.tooDeep := by
  rw [columnsOf]
  split
  · next entry before hresolve =>
    obtain ⟨rfl, rfl⟩ :=
      Prod.mk.inj (Option.some.inj ((find?_chainEntries k depth).symm.trans hresolve))
    rw [chainCte_columns, List.isEmpty_nil, if_pos rfl, h]
    rfl
  · next hnone => cases (find?_chainEntries k depth).symm.trans hnone

/-- The columns of a CTE of the chain lie as deep as the chain is long. -/
theorem outputColumns_chainCte (lookup : Option Lookup) (k depth : Nat)
    (h : maxCteDepth < depth + k) :
    outputColumns lookup ⟨chainEntries k, depth⟩ (chainCte k).statement = .error Call.tooDeep := by
  induction k generalizing depth with
  | zero =>
    rw [outputColumns, if_pos (show depth > maxCteDepth from h)]
    rfl
  | succ k ih =>
    have hbody : ∀ q, columnsOf lookup ⟨chainEntries (k + 1), depth⟩ q (.table [] (chainName k) none)
        = .error Call.tooDeep := columnsOf_chainCte (ih (depth + 1) (by omega))
    by_cases hdepth : depth > maxCteDepth
    · rw [outputColumns, if_pos hdepth]
      rfl
    · rw [outputColumns, if_neg hdepth]
      show (do return listColumns (← sourceColumns lookup ⟨chainEntries (k + 1), depth⟩
        (.simple [.bare (.star none)] (some (.table [] (chainName k) none)))) _) = _
      rw [sourceColumns_eq]
      show (do return listColumns (← [Source.table [] (chainName k) none].mapM _) _) = _
      rw [List.mapM_cons, hbody]
      rfl

/-! ## The select next to a chain -/

theorem sameName_chainName_table (k : Nat) : sameName (chainName k) "t" = false := by
  rw [Bool.eq_false_iff]
  intro hsame
  rw [sameName_iff, foldCase, foldCase] at hsame
  have hlist := String.ofList_injective hsame
  rw [chainName, String.toList_ofList, List.replicate_succ, List.map_cons] at hlist
  exact absurd (List.head_eq_of_cons_eq hlist) (by decide)

theorem findEntry_chainEntries_table (n : Nat) : findEntry "t" (chainEntries n) = none := by
  induction n with
  | zero => rfl
  | succ n ih =>
    rw [chainEntries_succ, findEntry, chainCte_name, sameName_chainName_table]
    exact ih

theorem columnsOf_besideChain (n : Nat) (q : Select) :
    columnsOf none (Scope.root (besideChain n)) q (.table [] "t" none)
      = .ok ⟨"t", inferColumns q (.table [] "t" none), true⟩ := by
  have hresolve : (Scope.root (besideChain n)).resolve? (.table [] "t" none) = none := by
    rw [Scope.resolve?, Scope.find?, entries_root_besideChain, findEntry_chainEntries_table]
    rfl
  rw [columnsOf_table hresolve (show lookupColumns none _ _ = .ok none from rfl)]
  rfl

theorem sourceColumns_besideChain (n : Nat) :
    sourceColumns none (Scope.root (besideChain n)) idOfTable = .ok [⟨"t", ["id"], true⟩] := by
  rw [sourceColumns_eq]
  show [Source.table [] "t" none].mapM _ = _
  rw [List.mapM_cons, columnsOf_besideChain, List.mapM_nil]
  show Except.ok [_] = _
  decide +kernel

theorem selectable_besideChain (n : Nat) :
    selectable none (besideChain n) = .ok [⟨"id", .name "id"⟩] := by
  show selectableIn none (Scope.root (besideChain n)) idOfTable = _
  rw [selectableIn, sourceColumns_besideChain]
  rfl

end Sql
