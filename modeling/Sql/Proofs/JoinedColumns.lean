import Sql.Proofs.CteChains

/-!
# What a select can name after a join

A join adds a source and a condition to a select, and what the select could name before it can
still name, with one exception. Where an unknown table is the only source, the text gives it also
the columns that it names without a qualifier. With a second source these no longer count, so a
column that is only named in this way is lost (`Select.OnlyBare`).

* `columnsOf_joined`: the columns of a source before and after the join.
* `Select.not_named_joined_iff`: which names the sources of the select lose.
* `Statement.addJoin_keeps`: the same for all that can be named. Resolution itself goes on, unless
  the joined table is a CTE and the statement has more CTE definitions than the depth limit.
-/

namespace Sql

variable {lookup : Option Lookup}

/-! ## Sources before and after a join -/

/-- The select with one more join. -/
def Select.joined (q : Select) (j : Join) : Select := { q with joins := q.joins ++ [j] }

theorem Select.mem_exprs_joined {q : Select} {j : Join} {e : Expr} :
    e ∈ (q.joined j).exprs ↔ e ∈ q.exprs ∨ e ∈ j.constraint.condition? := by
  have hjoins : e ∈ (q.joins ++ [j]).filterMap (fun j => j.constraint.condition?)
      ↔ e ∈ q.joins.filterMap (fun j => j.constraint.condition?) ∨ e ∈ j.constraint.condition? := by
    rw [List.filterMap_append, List.mem_append, List.mem_filterMap (l := [j])]
    simp
  rw [Select.exprs_eq, Select.exprs_eq, List.mem_append, List.mem_append, List.mem_append,
    List.mem_append]
  show (_ ∨ e ∈ (q.joins ++ [j]).filterMap _) ∨ e ∈ q.tailExprs ↔ _
  rw [hjoins]
  tauto

theorem Select.mentions_joined {q : Select} {j : Join} {source n : String} :
    (q.joined j).Mentions source n
      ↔ q.Mentions source n ∨ ∃ e ∈ j.constraint.condition?, e.Mentions source n := by
  unfold Select.Mentions
  simp only [Select.mem_exprs_joined, or_and_right, exists_or]

/-- **A source keeps its columns,** unless it is the only one and only the text says what they
are. -/
theorem columnsOf_joined {scope : Scope} {q : Select} {t : Source} {c : SourceColumns}
    (h : columnsOf lookup scope q t = .ok c) (j : Join) :
    ∃ c', columnsOf lookup scope (q.joined j) t = .ok c'
      ∧ ((t.IsUnknown lookup scope ∧ q.joins = [])
        ∨ ∀ n, c.exposes n = true → c'.exposes n = true) := by
  rcases columnsOf_cases h with ⟨hunknown, hall⟩ | hall
  · refine ⟨_, hall (q.joined j), ?_⟩
    obtain rfl := Except.ok.inj (h.symm.trans (hall q))
    by_cases hjoins : q.joins = []
    · exact .inl ⟨hunknown, hjoins⟩
    · refine .inr fun n hn => ?_
      rcases exposes_inferred.mp hn with hmentions | ⟨hnone, -⟩ | ⟨k, hk, hshared⟩
      · exact exposes_inferred.mpr (.inl (Select.mentions_joined.mpr (.inl hmentions)))
      · exact absurd hnone hjoins
      · exact exposes_inferred.mpr (.inr (.inr ⟨k, List.mem_append_left _ hk, hshared⟩))
  · exact ⟨c, hall (q.joined j), .inr fun n hn => hn⟩

/-! ## The depth limit -/

/-- A call with which the resolution of a statement starts fails for its depth only if the statement
has more CTE definitions than the limit. -/
theorem Call.Starts.lt_of_failsTooDeep {s : Statement} {start : Call} (hstart : start.Starts s)
    (hfails : start.FailsTooDeep lookup) : maxCteDepth < s.allCtes.length := by
  obtain ⟨hsub, hdepth⟩ := hstart.ahead_subperm
  have hlength := (s.definitions_sublist []).length_le
  have hle := hsub.length_le
  rw [List.length_map] at hlength
  rw [List.length_append] at hle
  have hwithin : start.Within s.allCtes.length := by
    unfold Call.Within
    omega
  exact hfails.lt hwithin

/-- The columns of a table cannot be resolved for their depth only if the table is a CTE. -/
theorem lt_of_columnsOf_tooDeep {s : Statement} {q : Select} {path : List String} {name : String}
    {asName : Option String}
    (h : columnsOf lookup (Scope.root s) q (.table path name asName) = .error Call.tooDeep) :
    maxCteDepth < s.allCtes.length := by
  have hscope : (PlacedScope.empty.enter [] s).scope = Scope.root s := PlacedScope.scope_enter _ _ _
  rw [columnsOf] at h
  split at h
  -- only the definition of a CTE is resolved in a scope that is one deeper
  · next entry before hresolve =>
    rw [← hscope, PlacedScope.scope_resolve?] at hresolve
    obtain ⟨⟨c, placed⟩, hplaced, heq⟩ := Option.map_eq_some_iff.mp hresolve
    obtain ⟨rfl, rfl⟩ := Prod.mk.inj heq
    have hfound : (PlacedScope.empty.enter [] s).find? name = some (c, placed) := by
      cases path with
      | nil => exact hplaced
      | cons p ps => cases hplaced
    split at h
    · next hcolumns =>
      rcases error_of_bind h with h | ⟨out, -, h⟩
      · have hfails : (Call.definition placed c).FailsTooDeep lookup := by
          show cteColumns lookup placed.scope c.entry.cte = .error Call.tooDeep
          rw [cteColumns, if_pos hcolumns]
          exact h
        exact (Call.Starts.definition hfound).lt_of_failsTooDeep hfails
      · simp [pure, Except.pure] at h
    · simp [pure, Except.pure] at h
  · rcases error_of_bind h with h | ⟨found, -, h⟩
    · exact absurd h (lookupColumns_ne_tooDeep _ _ _)
    · split at h <;> simp [pure, Except.pure] at h

/-! ## The whole join -/

/-- The only source of the select is a table of which only the text says the columns, and the text
names the column there without a qualifier, neither by the name of an item nor with the name of the
table before it. -/
structure Select.OnlyBare (q : Select) (lookup : Option Lookup) (scope : Scope) (n : String) :
    Prop where
  single : q.joins = []
  unknown : ∃ t, q.source = some t ∧ t.IsUnknown lookup scope ∧ ¬ q.Mentions t.effectiveName n
  unnamed : q.names n = false

theorem Statement.addJoin_eq_ok {s t : Statement} {r : JoinRequest}
    (h : s.addJoin r lookup = .ok t) :
    ∃ q path name j, s.body = .select q ∧ r.joinFor lookup (Scope.root s) q path name = .ok j
      ∧ t = ⟨s.withClause, .select (q.joined j)⟩ := by
  unfold addJoin at h
  dsimp only at h
  split at h
  · simp [bind, Except.bind] at h
  split at h
  · simp [bind, Except.bind] at h
  split at h
  · simp at h
  next path name hparts =>
  split at h
  · next q hq =>
    obtain ⟨j, hj, h⟩ := ok_of_bind h
    exact ⟨q, path, name, j, hq, hj, (Except.ok.inj h).symm⟩
  · simp at h

theorem JoinRequest.mem_of_chooseSource {r : JoinRequest} {sources : List SourceColumns}
    {source : String} (h : r.chooseSource sources = .ok source) :
    ∃ s ∈ sources, s.source = source := by
  unfold chooseSource at h
  split at h
  · next one hone =>
    obtain rfl := Except.ok.inj h
    have hmem : one
        ∈ (sources.filter fun s => r.columns.all s.exposes).map SourceColumns.source := by
      rw [hone]
      exact List.mem_singleton_self one
    obtain ⟨s, hs, rfl⟩ := List.mem_map.mp hmem
    exact ⟨s, List.mem_of_mem_filter hs, rfl⟩
  · simp at h
  · simp at h

theorem Select.sources_joined (q : Select) (j : Join) :
    (q.joined j).sources = q.sources ++ [j.right] := by
  rw [sources, sources, List.append_assoc]
  simp [joined]

/-- **Which names the sources lose.** Of the names of a select, those are not among its items and
its own sources after the join that only the text gave to its only source, without a qualifier, and
that the condition of the join does not give to it. -/
theorem Select.not_named_joined_iff {q : Select} {j : Join} {scope : Scope}
    {sources sources' : List SourceColumns}
    (hsources : q.sources.mapM (columnsOf lookup scope q) = .ok sources)
    (hsources' : q.sources.mapM (columnsOf lookup scope (q.joined j)) = .ok sources')
    {t₀ : Source} (hsource : q.source = some t₀) {e : Expr} (hj : j.constraint = .on e) {n : String}
    (hn : q.names n = true ∨ ∃ s ∈ sources, s.exposes n = true) :
    ¬ (q.names n = true ∨ ∃ s ∈ sources', s.exposes n = true)
      ↔ q.OnlyBare lookup scope n ∧ ¬ e.Mentions t₀.effectiveName n := by
  constructor
  · intro hlost
    have hunnamed : q.names n = false := Bool.eq_false_iff.mpr fun h => hlost (.inl h)
    have hhidden : ∀ s ∈ sources', s.exposes n = false := fun s hs =>
      Bool.eq_false_iff.mpr fun h => hlost (.inr ⟨s, hs, h⟩)
    -- some source had the name, and its columns after the join do not
    obtain ⟨s, hs, hexposed⟩ : ∃ s ∈ sources, s.exposes n = true := by
      rcases hn with hn | hn
      · rw [hunnamed] at hn
        cases hn
      · exact hn
    obtain ⟨t, ht, hcolumns⟩ := mem_of_mapM hsources s hs
    obtain ⟨s', hcolumns', hkept⟩ := columnsOf_joined hcolumns j
    obtain ⟨s'', hs'', hsame⟩ := exists_of_mapM hsources' t ht
    obtain rfl := Except.ok.inj (hcolumns'.symm.trans hsame)
    rcases hkept with ⟨hunknown, hjoins⟩ | hkept
    · obtain rfl : t = t₀ := by simpa [Select.sources, hsource, hjoins] using ht
      have hinferred : ¬ (q.joined j).Mentions t.effectiveName n := by
        intro hmentions
        rcases columnsOf_cases hcolumns with ⟨-, hall⟩ | hall
        · obtain rfl := Except.ok.inj (hcolumns'.symm.trans (hall (q.joined j)))
          exact Bool.eq_false_iff.mp (hhidden _ hs'') (exposes_inferred.mpr (.inl hmentions))
        · obtain rfl := Except.ok.inj (hcolumns'.symm.trans (hall (q.joined j)))
          exact absurd hexposed (Bool.eq_false_iff.mp (hhidden _ hs''))
      rw [Select.mentions_joined, hj] at hinferred
      refine ⟨⟨hjoins, ⟨t, hsource, hunknown, fun h => hinferred (.inl h)⟩, hunnamed⟩, fun h => ?_⟩
      exact hinferred (.inr ⟨e, rfl, h⟩)
    · exact absurd (hkept n hexposed) (Bool.eq_false_iff.mp (hhidden s' hs''))
  · rintro ⟨⟨hjoins, ⟨t, ht, hunknown, hbare⟩, hunnamed⟩, hcondition⟩ hreported
    obtain rfl := Option.some.inj (ht.symm.trans hsource)
    rcases hreported with hnamed | ⟨s', hs', hexposed⟩
    · rw [hunnamed] at hnamed
      cases hnamed
    · obtain ⟨t', ht', hcolumns⟩ := mem_of_mapM hsources' s' hs'
      obtain rfl : t' = t := by simpa [Select.sources, hsource, hjoins] using ht'
      obtain ⟨path, name, asName, rfl, hresolve, hfound⟩ := hunknown
      rw [columnsOf_table hresolve hfound] at hcolumns
      obtain rfl := Except.ok.inj hcolumns
      rcases exposes_inferred.mp hexposed with hmentions | ⟨hnone, -⟩ | ⟨k, hk, hshared⟩
      · rcases Select.mentions_joined.mp hmentions with h | ⟨x, hx, h⟩
        · exact hbare h
        · rw [hj] at hx
          obtain rfl := Option.some.inj hx
          exact hcondition h
      · simp [Select.joined] at hnone
      · obtain rfl : k = j := by simpa [Select.joined, hjoins] using hk
        simp [hj, JoinConstraint.sharedColumns, nameIn] at hshared

/-- **A join hides a column only if the text alone gave it to the only source, without a
qualifier.** A name that could be used before the join can be used after it, up to case, unless it
is such a name, is no column of the join, and is none of the joined table's columns. The columns
after the join are there, unless the joined table is a CTE, and the statement has more CTE
definitions than the depth limit. -/
theorem Statement.addJoin_keeps {s t : Statement} {r : JoinRequest}
    (hlookup : Lookup.Answers lookup) (h : s.addJoin r lookup = .ok t) :
    ∃ q j before, s.body = .select q ∧ t = ⟨s.withClause, .select (q.joined j)⟩
      ∧ selectable lookup s = .ok before
      ∧ ((∃ right after, columnsOf lookup (Scope.root s) (q.joined j) j.right = .ok right
          ∧ selectable lookup t = .ok after
          ∧ ∀ c ∈ before, findColumn? after c.name = none
            ↔ q.OnlyBare lookup (Scope.root s) c.name ∧ nameIn c.name r.columns = false
              ∧ right.exposes c.name = false)
        ∨ selectable lookup t = .error Call.tooDeep ∧ maxCteDepth < s.allCtes.length) := by
  obtain ⟨q, path, name, j, hq, hjoin, rfl⟩ := addJoin_eq_ok h
  obtain ⟨hsource, -, sources, source, e, hsources, hchosen, he, hj⟩ :=
    JoinRequest.joinFor_eq_ok hjoin
  obtain ⟨t₀, hsource⟩ := Option.ne_none_iff_exists'.mp hsource
  have hselectable : selectable lookup s = .ok (firstByName SelectableColumn.name
      (itemExprs q.items ++ sourceExprs sources)) := by
    rw [selectable, hq]
    show selectableIn lookup (Scope.root s) q = _
    rw [selectableIn, hsources]
    rfl
  have hafter : selectable lookup ⟨s.withClause, .select (q.joined j)⟩
      = selectableIn lookup (Scope.root s) (q.joined j) := rfl
  have hsources' : sourceColumns lookup (Scope.root s) (q.joined j)
      = (q.sources ++ [j.right]).mapM (columnsOf lookup (Scope.root s) (q.joined j)) := by
    rw [sourceColumns_eq, Select.sources_joined]
  rw [sourceColumns_eq] at hsources
  -- a single source is the one that the condition compares the columns with
  have hcondition : q.joins = [] → ∀ {n}, e.Mentions t₀.effectiveName n
      ↔ nameIn n r.columns = true := by
    intro hjoins n
    obtain ⟨c, hc, hchosen⟩ := JoinRequest.mem_of_chooseSource hchosen
    obtain ⟨t, ht, hcolumns⟩ := mem_of_mapM hsources c hc
    obtain rfl : t = t₀ := by simpa [Select.sources, hsource, hjoins] using ht
    rw [JoinRequest.mentions_condition he, ← hchosen, source_of_columnsOf hcolumns]
    simp
  obtain ⟨kept, hkept⟩ : ∃ kept,
      q.sources.mapM (columnsOf lookup (Scope.root s) (q.joined j)) = .ok kept := by
    refine exists_mapM fun t ht => ?_
    obtain ⟨c, -, hc⟩ := exists_of_mapM hsources t ht
    obtain ⟨c', hc', -⟩ := columnsOf_joined hc j
    exact ⟨c', hc'⟩
  rw [List.mapM_append, hkept] at hsources'
  refine ⟨q, j, _, hq, rfl, hselectable, ?_⟩
  cases hright : columnsOf lookup (Scope.root s) (q.joined j) j.right with
  | error x =>
    obtain rfl := columnsOf_error hlookup (q.joined j) j.right hright
    refine .inr ⟨?_, ?_⟩
    · rw [hafter, selectableIn, hsources', List.mapM_cons, List.mapM_nil, hright]
      rfl
    · rw [hj] at hright
      exact lt_of_columnsOf_tooDeep hright
  | ok right =>
    refine .inl ⟨right, firstByName SelectableColumn.name
      (itemExprs q.items ++ sourceExprs (kept ++ [right])), rfl, ?_, fun c hc => ?_⟩
    · rw [hafter, selectableIn, hsources', List.mapM_cons, List.mapM_nil, hright]
      rfl
    · have hbefore : q.names c.name = true ∨ ∃ s ∈ sources, s.exposes c.name = true := by
        refine isSome_findColumn?_selectable.mp (isSome_findColumn?.mpr ?_)
        exact nameIn_iff.mpr ⟨c.name, List.mem_map_of_mem hc, sameName_refl _⟩
      have hlost := Select.not_named_joined_iff hsources hkept hsource (by rw [hj]) hbefore
      have hnone : findColumn? (firstByName SelectableColumn.name
            (itemExprs q.items ++ sourceExprs (kept ++ [right]))) c.name = none
          ↔ ¬ (q.names c.name = true ∨ ∃ s ∈ kept, s.exposes c.name = true)
            ∧ right.exposes c.name = false := by
        rw [← Option.not_isSome_iff_eq_none, isSome_findColumn?_selectable]
        simp only [List.mem_append, List.mem_singleton, or_and_right, exists_or, exists_eq_left,
          ← or_assoc, not_or, Bool.not_eq_true]
      rw [hnone, hlost, and_assoc]
      refine and_congr_right fun honly => and_congr_left' ?_
      rw [hcondition honly.single, Bool.not_eq_true]

/-- A table joined to two others, of which nothing is known, takes no column from them. -/
theorem addJoin_keeps_orders :
    ∃ s t before after,
      parse "select u.id from users u, logs where active = true and u.name = 'x'" = .ok s
      ∧ Lookup.Answers none ∧ s.addJoin ⟨"orders", "", ["name"], .left⟩ none = .ok t
      ∧ selectable none s = .ok before ∧ before.map SelectableColumn.name = ["id", "name"]
      ∧ selectable none t = .ok after
      ∧ ∀ c ∈ before, (findColumn? after c.name).isSome = true := by
  obtain ⟨s, hs, h⟩ := exists_ok_of_any
    (show (parse "select u.id from users u, logs where active = true and u.name = 'x'").toOption.any
      (fun s => s.allCtes.isEmpty
        && !s.body.leftmost.joins.isEmpty
        && ((selectable none s).toOption.any fun cs =>
          cs.map SelectableColumn.name == ["id", "name"])
        && (s.addJoin ⟨"orders", "", ["name"], .left⟩ none).toOption.any fun _ => true) = true
      by decide +kernel)
  simp only [Bool.and_eq_true, List.isEmpty_iff] at h
  obtain ⟨⟨⟨hctes, hjoins⟩, hnames⟩, h⟩ := h
  obtain ⟨t, ht, -⟩ := exists_ok_of_any h
  have hlookup : Lookup.Answers none := fun ask hask => by simp at hask
  obtain ⟨q, j, before, hq, -, hbefore, hafter⟩ := Statement.addJoin_keeps hlookup ht
  rcases hafter with ⟨right, after, -, hafter, hkept⟩ | ⟨-, hlimit⟩
  · refine ⟨s, t, before, after, hs, hlookup, ht, hbefore, ?_, hafter, fun c hc => ?_⟩
    · simpa [hbefore, Except.toOption] using hnames
    · -- a select with a second source has no column that only a bare name gives
      rw [← Option.ne_none_iff_isSome, Ne, hkept c hc]
      rintro ⟨honly, -⟩
      simp [hq, Body.leftmost, honly.single] at hjoins
  · simp [hctes] at hlimit

/-! ## What a join takes away -/

/-- The join of the last CTE of a chain. -/
def joinChain (n : Nat) : JoinRequest :=
  ⟨dotted ([chainName n].map writtenPart), "", ["id"], .inner⟩

/-- The join that is added for it. -/
def chainJoin (n : Nat) : Join :=
  ⟨.inner, .table [] (chainName n) none,
    .on (.binary (.qualified "t" "id") .eq (.qualified (chainName n) "id"))⟩

theorem joinFor_joinChain (n : Nat) :
    (joinChain n).joinFor none (Scope.root (besideChain (n + 1))) idOfTable [] (chainName n)
      = .ok (chainJoin n) := by
  have hname : (joinChain n).effectiveAlias (chainName n) = chainName n := rfl
  have hfree : (idOfTable.sources.any fun s => sameName s.effectiveName (chainName n)) = false := by
    show (sameName "t" (chainName n) || false) = false
    rw [sameName_comm, sameName_chainName_table]
    rfl
  unfold JoinRequest.joinFor
  simp only [hname, hfree]
  rw [if_neg (show ¬ idOfTable.source.isNone = true by decide), if_neg Bool.false_ne_true]
  show (do let sources ← sourceColumns none (Scope.root (besideChain (n + 1))) idOfTable; _) = _
  rw [sourceColumns_besideChain]
  show Except.ok (Join.mk .inner (.table [] (chainName n)
    (if sameName (chainName n) (chainName n) then none else _)) _) = _
  rw [if_pos (sameName_refl _)]
  rfl

theorem addJoin_joinChain (n : Nat) :
    (besideChain (n + 1)).addJoin (joinChain n) none
      = .ok ⟨(besideChain (n + 1)).withClause, .select (idOfTable.joined (chainJoin n))⟩ := by
  have hparts : (joinChain n).nameParts? = some ([], chainName n) := by
    rw [JoinRequest.nameParts?, joinChain,
      splitName_dotted (by simp) (by simp [chainName_ne_empty])]
    rfl
  rw [Statement.addJoin, hparts]
  show (do
    let j ← (joinChain n).joinFor none (Scope.root (besideChain (n + 1))) idOfTable [] (chainName n)
    _) = _
  rw [joinFor_joinChain]
  rfl

/-- After the join nothing can be named, since the columns of the last CTE lie too deep. -/
theorem selectable_joinChain {n : Nat} (hn : maxCteDepth ≤ n) :
    selectable none ⟨(besideChain (n + 1)).withClause, .select (idOfTable.joined (chainJoin n))⟩
      = .error Call.tooDeep := by
  have hdeep : columnsOf none (Scope.root (besideChain (n + 1))) (idOfTable.joined (chainJoin n))
      (.table [] (chainName n) none) = .error Call.tooDeep := by
    have hscope : Scope.root (besideChain (n + 1)) = ⟨chainEntries (n + 1), 0⟩ := by
      rw [← entries_root_besideChain]
      rfl
    rw [hscope]
    exact columnsOf_chainCte (outputColumns_chainCte none n 1 (by omega)) _
  show selectableIn none (Scope.root (besideChain (n + 1))) _ = _
  rw [selectableIn, sourceColumns_eq, Select.sources_joined]
  show (do
    let sources ← [Source.table [] "t" none, .table [] (chainName n) none].mapM
      (columnsOf none (Scope.root (besideChain (n + 1))) (idOfTable.joined (chainJoin n)))
    _) = _
  rw [List.mapM_cons, columnsOf_besideChain, List.mapM_cons, hdeep]
  rfl

/-- **A join can take a column away.** A second source takes the column that an unknown table had
only as a bare name. A CTE below more others than the depth limit takes all of them. -/
theorem addJoin_hides :
    (∃ s t before after, parse "select id from users where active = true" = .ok s
      ∧ s.addJoin ⟨"orders", "", ["id"], .left⟩ none = .ok t
      ∧ selectable none s = .ok before ∧ before.map SelectableColumn.name = ["id", "active"]
      ∧ selectable none t = .ok after ∧ after.map SelectableColumn.name = ["id"])
    ∧ ∃ text t, parse text = .ok (besideChain 257)
      ∧ (besideChain 257).addJoin (joinChain 256) none = .ok t
      ∧ selectable none (besideChain 257) = .ok [⟨"id", .name "id"⟩]
      ∧ selectable none t = .error Call.tooDeep := by
  constructor
  · obtain ⟨s, hs, h⟩ := exists_ok_of_any
      (show (parse "select id from users where active = true").toOption.any (fun s =>
        ((selectable none s).toOption.any fun cs =>
          cs.map SelectableColumn.name == ["id", "active"])
        && (s.addJoin ⟨"orders", "", ["id"], .left⟩ none).toOption.any fun t =>
          (selectable none t).toOption.any fun cs => cs.map SelectableColumn.name == ["id"]) = true
        by decide +kernel)
    obtain ⟨hbefore, h⟩ := (Bool.and_eq_true _ _).mp h
    obtain ⟨before, hbefore, hnames⟩ := exists_ok_of_any hbefore
    obtain ⟨t, ht, h⟩ := exists_ok_of_any h
    obtain ⟨after, hafter, hnames'⟩ := exists_ok_of_any h
    exact ⟨s, t, before, after, hs, ht, hbefore, eq_of_beq hnames, hafter, eq_of_beq hnames'⟩
  · obtain ⟨text, hparse⟩ := exists_parse_besideChain 256
    exact ⟨text, _, hparse, addJoin_joinChain 256, selectable_besideChain 257,
      selectable_joinChain (Nat.le_refl maxCteDepth)⟩

end Sql
