import Sql.Proofs.FilterFrame

/-!
# Columns of set operations

A plain filter adds its predicates to every select that a set operation combines. The first select
finds a column by its name, the others by a position. That position counts the named items of the
first select list, and an item without a name, such as a literal, is not counted. So the others are
filtered by the item that stands under the named one only if all items before it have names
(`namesBefore_eq`); otherwise by one further to the left.

* `Statement.filterBy_leaves`: by which columns each select is filtered.
* `filterBy_leaves_unnamed`: a literal in front shifts the column of the second select.
-/

namespace Sql

variable {lookup : Option Lookup} {criteria : Criteria} {s t : Statement} {key : String}
  {c : Criterion} {items : List SelectItem} {p : Nat}

/-! ## Positions in select lists -/

/-- The position of the first item that has the key for its name, given how items are named. -/
def namePosition? (name : SelectItem → Option String) (items : List SelectItem) (key : String) :
    Option Nat :=
  items.findIdx? fun x => (name x).any fun n => sameName n key

/-- How many of the items before that position have names. -/
def namesBefore (items : List SelectItem) (p : Nat) : Nat :=
  ((items.take p).filterMap SelectItem.derivedName).length

theorem namesBefore_le : namesBefore items p ≤ p :=
  (List.length_filterMap_le _ _).trans (List.length_take_le _ _)

theorem namePosition?_cons (name : SelectItem → Option String) (x : SelectItem) :
    namePosition? name (x :: items) key =
      if (name x).any fun n => sameName n key then some 0
      else (namePosition? name items key).map (· + 1) := by
  rw [namePosition?, List.findIdx?_cons]
  rfl

theorem lt_length_of_namePosition? {name : SelectItem → Option String}
    (h : namePosition? name items key = some p) : p < items.length :=
  (List.findIdx?_eq_some_iff_getElem.mp h).1

/-- Positions are counted right if there is no item without a name. -/
theorem namesBefore_eq (hp : p ≤ items.length) (h : ∀ x ∈ items.take p, x.derivedName.isSome) :
    namesBefore items p = p := by
  rw [namesBefore, List.filterMap_length_eq_length.mpr h, List.length_take, Nat.min_eq_left hp]

/-- Among the names of a list, the position of a key is that of its item less the items without
names. -/
theorem findIdx?_derivedName : (items.filterMap SelectItem.derivedName).findIdx?
      (fun n => sameName n key) =
    (namePosition? SelectItem.derivedName items key).map (namesBefore items) := by
  induction items with
  | nil => rfl
  | cons x items ih =>
    rw [namePosition?_cons]
    cases hx : x.derivedName with
    | none =>
      -- the position of the item moves on, the one of its name does not
      rw [List.filterMap_cons_none hx, ih]
      simp only [Option.any_none, Bool.false_eq_true, if_false, Option.map_map]
      refine Option.map_congr fun p _ => ?_
      simp [namesBefore, hx]
    | some n =>
      rw [List.filterMap_cons_some hx, List.findIdx?_cons, ih]
      by_cases hn : sameName n key = true
      · simp [hn, namesBefore]
      · simp [hn, namesBefore, hx, Function.comp_def]

/-! ## Names without stars -/

/-- The columns of a list without stars are its names. -/
theorem names_listColumns {sources : List SourceColumns}
    (hitems : ∀ x ∈ items, x.expr.isStar = false) :
    (listColumns sources items).names = items.filterMap SelectItem.derivedName := by
  have hfold : ∀ out : OutputColumns, (items.foldl (OutputColumns.addItem sources) out).names =
      out.names ++ items.filterMap SelectItem.derivedName := by
    induction items with
    | nil => simp
    | cons x items ih =>
      intro out
      obtain ⟨hx, hitems⟩ := List.forall_mem_cons.mp hitems
      have hstep : (out.addItem sources x).names = out.names ++ x.derivedName.toList := by
        unfold OutputColumns.addItem
        split
        · next heq => simp [heq, Expr.isStar] at hx
        · cases x.derivedName <;> simp
      rw [List.foldl_cons, ih hitems, hstep, List.filterMap_cons]
      cases x.derivedName <;> simp
  exact (hfold ⟨[], true⟩).trans (List.nil_append _)

/-- The columns of a statement are the names of its leftmost select, if that has no stars. -/
theorem names_outputColumns {scope : Scope} {out : OutputColumns}
    (hitems : ∀ x ∈ s.body.leftmost.items, x.expr.isStar = false)
    (h : outputColumns lookup scope s = .ok out) :
    out.names = s.body.leftmost.items.filterMap SelectItem.derivedName := by
  rw [outputColumns] at h
  split at h
  · simp at h
  · split at h
    next q inner hq =>
    obtain rfl : q = s.body.leftmost := by rw [← Body.leftmostIn_fst s.body (scope.enter s), hq]
    have hstar : (s.body.leftmost.items.any fun x => x.expr.isStar) = false := by simpa using hitems
    rw [hstar] at h
    rw [← Except.ok.inj h]
    exact names_listColumns hitems

/-! ## Columns found by name -/

/-- Leaving out later items of the same name does not change what a name finds. -/
theorem find?_firstByName {α : Type} (name : α → String) (xs : List α) :
    (firstByName name xs).find? (fun x => sameName (name x) key) =
      xs.find? fun x => sameName (name x) key := by
  induction xs with
  | nil => rfl
  | cons x xs ih =>
    rw [firstByName, List.find?_cons, List.find?_cons]
    cases hx : sameName (name x) key with
    | true => rfl
    | false =>
      rw [List.find?_filter, ← ih]
      refine congrArg (fun f => List.find? f (firstByName name xs)) (funext fun y => ?_)
      cases hy : sameName (name y) key with
      | false => simp
      | true =>
        have hne : sameName (name x) (name y) = false := by
          rw [Bool.eq_false_iff]
          exact fun hsame => Bool.eq_false_iff.mp hx (sameName_trans hsame hy)
        simp [hne]

/-- A key finds the first item that has it for its name. -/
theorem findColumn?_itemExprs : (findColumn? (itemExprs items) key).map SelectableColumn.expr =
    (namePosition? SelectItem.outputName items key).bind fun p =>
      (items[p]?).map SelectItem.expr := by
  induction items with
  | nil => rfl
  | cons x items ih =>
    rw [namePosition?_cons]
    cases hx : x.outputName with
    | none =>
      have hcons : itemExprs (x :: items) = itemExprs items := by simp [itemExprs, hx]
      rw [hcons, ih]
      simp only [Option.any_none, Bool.false_eq_true, if_false, Option.bind_map]
      rfl
    | some n =>
      have hcons : itemExprs (x :: items) = ⟨n, x.expr⟩ :: itemExprs items := by
        simp [itemExprs, hx]
      rw [hcons, findColumn?, List.find?_cons]
      by_cases hn : sameName n key = true
      · simp [hn]
      · simp only [hn, Option.any_some, Bool.false_eq_true, if_false, Option.bind_map]
        exact ih

/-- What a select finds by a name: its first item that has the name for its alias or is a column of
that name, else a column of one of its sources. -/
structure FoundByName (items : List SelectItem) (key : String) (e : Expr) : Prop where
  item : ∀ p, namePosition? SelectItem.outputName items key = some p →
    (items[p]?).map SelectItem.expr = some e
  source : namePosition? SelectItem.outputName items key = none →
    ∃ n, sameName n key = true ∧ (e = .name n ∨ ∃ source, e = .qualified source n)

theorem mem_sourceExprs {sources : List SourceColumns} {column : SelectableColumn}
    (h : column ∈ sourceExprs sources) : column.expr = .name column.name
      ∨ ∃ source, column.expr = .qualified source column.name := by
  obtain ⟨source, -, h⟩ := List.mem_flatMap.mp h
  obtain ⟨n, -, rfl⟩ := List.mem_map.mp h
  dsimp only
  split
  · exact .inr ⟨source.source, rfl⟩
  · exact .inl rfl

theorem foundByName_of_findColumn? {sources : List SourceColumns} {column : SelectableColumn}
    (h : findColumn? (firstByName SelectableColumn.name
      (itemExprs items ++ sourceExprs sources)) key = some column) :
    FoundByName items key column.expr := by
  have hitem : (findColumn? (itemExprs items) key).map SelectableColumn.expr = _ :=
    findColumn?_itemExprs
  rw [findColumn?, find?_firstByName, List.find?_append, ← findColumn?] at h
  constructor
  · intro p hp
    rw [hp, Option.bind_some, List.getElem?_eq_getElem (lt_length_of_namePosition? hp)] at hitem
    obtain ⟨own, hown, hexpr⟩ := Option.map_eq_some_iff.mp hitem
    rw [hown] at h
    obtain rfl := Option.some.inj h
    rw [List.getElem?_eq_getElem (lt_length_of_namePosition? hp), hexpr]
    rfl
  · intro hnone
    rw [hnone, Option.bind_none, Option.map_eq_none_iff] at hitem
    rw [hitem, Option.none_or] at h
    have hsame : sameName column.name key = true := by simpa using List.find?_some h
    exact ⟨column.name, hsame, mem_sourceExprs (List.mem_of_find?_eq_some h)⟩

theorem resolveIn_byName {root : Site} {column : SelectableColumn}
    (h : resolveIn lookup root key none = .ok (some column)) :
    FoundByName root.select.items key column.expr := by
  obtain ⟨columns, hcolumns, h⟩ := ok_of_bind h
  obtain ⟨sources, -, hcolumns⟩ := ok_of_bind hcolumns
  obtain rfl := Except.ok.inj hcolumns
  exact foundByName_of_findColumn? (Except.ok.inj h)

theorem resolveIn_byPosition {root : Site} {x : SelectItem} {column : SelectableColumn}
    (hx : root.select.items[p]? = some x) (hstar : x.expr.isStar = false)
    (h : resolveIn lookup root key (some p) = .ok (some column)) : column.expr = x.expr := by
  simp only [resolveIn, Option.bind_some, hx, hstar] at h
  rw [← Option.some.inj (Except.ok.inj h)]

/-! ## The selects of a set operation -/

theorem Body.select_of_sites {b : Body} {scope : PlacedScope} {place : Path} {root : Site}
    (h : (b.sites scope place)[0]? = some root) : root.select = b.leftmost := by
  fun_induction sites scope place b with
  | case1 scope place q =>
    obtain rfl := Option.some.inj h
    rfl
  | case2 scope place l op r ihl _ =>
    have hleft := List.length_pos_iff.mpr (l.sites_ne_nil scope (place ++ [.left]))
    rw [List.getElem?_append_left hleft] at h
    exact ihl h
  | case3 scope place w b ih => exact ih h

theorem Body.prefix_of_mem_sites {b : Body} {scope : PlacedScope} {place : Path} {root : Site}
    (h : root ∈ b.sites scope place) : place <+: root.place := by
  fun_induction sites scope place b with
  | case1 scope place q =>
    obtain rfl := List.mem_singleton.mp h
    exact List.prefix_rfl
  | case2 scope place l op r ihl ihr =>
    rcases List.mem_append.mp h with h | h
    · exact (List.prefix_append _ _).trans (ihl h)
    · exact (List.prefix_append _ _).trans (ihr h)
  | case3 scope place w b ih => exact (List.prefix_append _ _).trans (ih h)

/-- Every select stands at a place of its own. -/
theorem Body.places_nodup (b : Body) (scope : PlacedScope) (place : Path) :
    ((b.sites scope place).map Site.place).Nodup := by
  fun_induction sites scope place b with
  | case1 => simp
  | case2 scope place l op r ihl ihr =>
    rw [List.map_append, List.nodup_append]
    refine ⟨ihl, ihr, ?_⟩
    rintro _ hl _ hr rfl
    obtain ⟨left, hleft, heq⟩ := List.mem_map.mp hl
    obtain ⟨right, hright, rfl⟩ := List.mem_map.mp hr
    obtain ⟨rest, hrest⟩ := prefix_of_mem_sites hleft
    obtain ⟨rest', hrest'⟩ := prefix_of_mem_sites hright
    rw [← heq, ← hrest] at hrest'
    simp at hrest'
  | case3 scope place w b ih => exact ih

theorem Statement.places_nodup (s : Statement) (scope : PlacedScope) (place : Path) :
    ((s.sites scope place).map Site.place).Nodup :=
  s.body.places_nodup _ _

/-- The select lists of a set operation, without stars and equally long. -/
def Statement.EqualLists (s : Statement) : Prop :=
  ∀ root ∈ s.sites .empty [], (∀ x ∈ root.select.items, x.expr.isStar = false)
    ∧ root.select.items.length = s.body.leftmost.items.length

instance (s : Statement) : Decidable s.EqualLists :=
  inferInstanceAs (Decidable (∀ root ∈ s.sites .empty [], _ ∧ _))

theorem Statement.EqualLists.leftmost (h : s.EqualLists) :
    ∀ x ∈ s.body.leftmost.items, x.expr.isStar = false := by
  have hsites := List.length_pos_iff.mpr (s.body.sites_ne_nil (.enter .empty [] s) [.body])
  have hfirst := Body.select_of_sites (List.getElem?_eq_getElem hsites)
  exact hfirst ▸ (h _ (List.getElem_mem hsites)).1

/-! ## What a select is filtered by -/

/-- By this expression the select with that number is filtered for a key, given the first select
list and its own. The first select finds the key by name. Every other select takes the item at the
position that the key has among the names of the first select, if it has one. There, calls and casts
have names as well, and items without names are not counted. -/
structure LeafColumn (first : List SelectItem) (i : Nat) (own : List SelectItem) (key : String)
    (e : Expr) : Prop where
  leftmost : i = 0 → FoundByName own key e
  others : 0 < i → ∀ p, namePosition? SelectItem.derivedName first key = some p →
    (own[namesBefore first p]?).map SelectItem.expr = some e
  unnamed : 0 < i → namePosition? SelectItem.derivedName first key = none → FoundByName own key e
  /-- Each select is filtered by its own item at the position of the key, if both ways of naming
  agree on the position and no item before it is without a name. -/
  aligned : ∀ p, namePosition? SelectItem.outputName first key = some p →
    namePosition? SelectItem.derivedName first key = some p →
      (∀ x ∈ first.take p, x.derivedName.isSome) → (own[p]?).map SelectItem.expr = some e

/-- What is found in another select than the first, at the position of a key among the names of the
first. -/
theorem resolveIn_derivedName {first : List SelectItem} {root : Site} {column : SelectableColumn}
    (hstar : ∀ x ∈ root.select.items, x.expr.isStar = false)
    (hlength : root.select.items.length = first.length)
    (hp : namePosition? SelectItem.derivedName first key = some p)
    (h : resolveIn lookup root key (some (namesBefore first p)) = .ok (some column)) :
    (root.select.items[namesBefore first p]?).map SelectItem.expr = some column.expr := by
  -- the list has an item there, since it is as long as the first
  have hlt : namesBefore first p < root.select.items.length := by
    rw [hlength]
    exact namesBefore_le.trans_lt (lt_length_of_namePosition? hp)
  have hitem := List.getElem?_eq_getElem hlt
  rw [hitem, resolveIn_byPosition hitem (hstar _ (List.getElem_mem hlt)) h]
  rfl

theorem Statement.LooksAt.leafColumn {i : Nat} {root : Site} {position : Option Nat}
    {column : SelectableColumn} (hlists : s.EqualLists)
    (hroot : (s.sites .empty [])[i]? = some root) (hlooks : s.LooksAt lookup .empty key i position)
    (h : resolveIn lookup root key position = .ok (some column)) :
    LeafColumn s.body.leftmost.items i root.select.items key column.expr := by
  obtain ⟨hstar, hlength⟩ := hlists root (List.mem_of_getElem? hroot)
  cases hlooks with
  | byName =>
    have hfirst : root.select = s.body.leftmost := Body.select_of_sites hroot
    have hfound := resolveIn_byName h
    exact
      { leftmost := fun _ => hfound
        others := fun hi => absurd hi (Nat.lt_irrefl 0)
        unnamed := fun hi => absurd hi (Nat.lt_irrefl 0)
        aligned := fun p hp _ _ => hfound.item p (hfirst ▸ hp) }
  | @byPosition i out hout =>
    -- the position among the names of the statement is one among the items of this select
    rw [names_outputColumns hlists.leftmost hout, findIdx?_derivedName] at h
    have hothers : ∀ p, namePosition? SelectItem.derivedName s.body.leftmost.items key = some p →
        (root.select.items[namesBefore s.body.leftmost.items p]?).map SelectItem.expr =
          some column.expr := by
      intro p hp
      rw [hp] at h
      exact resolveIn_derivedName hstar hlength hp h
    refine
      { leftmost := fun hi => absurd hi (Nat.succ_ne_zero i)
        others := fun _ => hothers
        unnamed := fun _ hnone => ?_
        aligned := fun p _ hp hnamed => ?_ }
    · rw [hnone] at h
      exact resolveIn_byName h
    · rw [← hothers p hp, namesBefore_eq (lt_length_of_namePosition? hp).le hnamed]

/-- The predicates that filtering adds to a select are those of the criteria, each over a column of
the select that belongs to its key, and none is left out. -/
structure AddsJust (ps : List Placement) (root : Site) (criteria : Criteria)
    (column : String → Expr → Prop) : Prop where
  belongs : ∀ p ∈ ps, p.place = root.place → ∃ key c e, (key, c) ∈ criteria.active ∧ column key e
    ∧ c.predicate e key = .ok p.predicate ∧ p.having = e.containsAggregate
  complete : ∀ key c, (key, c) ∈ criteria.active → ∃ e q, column key e
    ∧ c.predicate e key = .ok q
    ∧ ∃ p ∈ ps, p.place = root.place ∧ (p.predicate = q ∨ q.same p.predicate = true)

/-- A plain filter puts the predicate of a criterion into the select itself. -/
theorem Statement.PlacesIn.eq_singleton {i : Nat} {root : Site} {qs : List Placement}
    (hlists : s.EqualLists) (hroot : (s.sites .empty [])[i]? = some root)
    (h : s.PlacesIn lookup false key c i root qs) :
    ∃ e q, LeafColumn s.body.leftmost.items i root.select.items key e
      ∧ c.predicate e key = .ok q ∧ qs = [⟨root.place, q, e.containsAggregate⟩] := by
  obtain ⟨column, ⟨position, hlooks, hcolumn⟩, hqs⟩ := h
  have hleaf := hlooks.leafColumn hlists hroot hcolumn
  obtain ⟨-, ⟨-, q, hq, rfl⟩ | ⟨hpush, -⟩⟩ := placements_eq_ok hqs
  · exact ⟨column.expr, q, hleaf, hq, rfl⟩
  · simp at hpush

/-- **By which columns a set operation is filtered.** If the selects of a statement have no stars and
equally long lists, a plain filter adds to each of them just the predicates of the criteria. The
first select is filtered by what it finds by the name of the key. Every other select is filtered by
its item at the position of the key among the names of the first select, which is the position of
the key's item less the number of items without names before it. -/
theorem Statement.filterBy_leaves (hlists : s.EqualLists)
    (h : s.filterBy criteria false lookup = .ok t) :
    ∃ ps, t = s.filteredBy ps ∧ ∀ i root, (s.sites .empty [])[i]? = some root →
      (∃ r, t.selectAt? root.place = some r
        ∧ r.filter = conjoinAll root.select.filter (predicatesAt root.place false ps)
        ∧ r.having = conjoinAll root.select.having (predicatesAt root.place true ps)
        ∧ r.items = root.select.items)
      ∧ AddsJust ps root criteria (LeafColumn s.body.leftmost.items i root.select.items) := by
  obtain ⟨all, rfl, hfrom, hall⟩ := filterBy_eq_placesIn h
  refine ⟨distinctPlacements all, s.foldl_apply _, fun i root hroot => ⟨?_, ?_, ?_⟩⟩
  · rw [foldl_apply]
    have hstands := s.rootSites_stand root (List.mem_of_getElem? hroot)
    exact selectAt?_filteredBy (selectAt?_eq_some.mpr hstands.select)
  · intro p hp hplace
    obtain ⟨key, c, hc, j, other, hother, qs, hqs, hp⟩ :=
      hfrom p (mem_of_mem_distinctPlacements hp)
    obtain ⟨e, q, hleaf, hq, rfl⟩ := hqs.eq_singleton hlists hother
    obtain rfl := List.mem_singleton.mp hp
    -- a place belongs to one select only
    have hplaces : ((s.sites .empty []).map Site.place)[j]? =
        ((s.sites .empty []).map Site.place)[i]? := by
      rw [List.getElem?_map, List.getElem?_map, hother, hroot]
      exact congrArg some hplace
    obtain ⟨hj, -⟩ := List.getElem?_eq_some_iff.mp hother
    obtain rfl := (List.getElem?_inj (by simpa using hj) (s.places_nodup .empty [])).mp hplaces
    obtain rfl := Option.some.inj (hother.symm.trans hroot)
    exact ⟨key, c, e, hc, hleaf, hq, rfl⟩
  · intro key c hc
    obtain ⟨qs, hqs, hmem⟩ := hall key c hc i root hroot
    obtain ⟨e, q, hleaf, hq, rfl⟩ := hqs.eq_singleton hlists hroot
    obtain ⟨p, hp, hplace, hsame⟩ :=
      exists_mem_distinctPlacements (hmem _ (List.mem_singleton_self _))
    refine ⟨e, q, hleaf, hq, p, hp, hplace, hsame.imp_left fun heq => ?_⟩
    rw [heq]

/-- A literal in front of the column that is filtered: it has no name, so the second select is
filtered by the literal in front of the column that it should be filtered by. -/
theorem filterBy_leaves_unnamed :
    ∃ s t, parse "select 1, a from t union select 2, b from u" = .ok s ∧ s.EqualLists
      ∧ s.filterBy ⟨[("a", .equals (.nat 5))]⟩ false none = .ok t
      ∧ (∃ out, t.format .generic = .ok out
        ∧ out.sql = "SELECT 1, a FROM t WHERE a = :a UNION SELECT 2, b FROM u WHERE 2 = :a")
      ∧ ∃ ps, t = s.filteredBy ps ∧ ∀ i root, (s.sites .empty [])[i]? = some root →
        (∃ r, t.selectAt? root.place = some r
          ∧ r.filter = conjoinAll root.select.filter (predicatesAt root.place false ps)
          ∧ r.having = conjoinAll root.select.having (predicatesAt root.place true ps)
          ∧ r.items = root.select.items)
        ∧ AddsJust ps root ⟨[("a", .equals (.nat 5))]⟩
          (LeafColumn s.body.leftmost.items i root.select.items) := by
  obtain ⟨s, hs, h⟩ := exists_ok_of_any
    (show (parse "select 1, a from t union select 2, b from u").toOption.any
      (fun s => decide s.EqualLists
        && (s.filterBy ⟨[("a", .equals (.nat 5))]⟩ false none).toOption.any
          fun t => (t.format .generic).toOption.any fun out => out.sql ==
            "SELECT 1, a FROM t WHERE a = :a UNION SELECT 2, b FROM u WHERE 2 = :a")
        = true by decide +kernel)
  obtain ⟨hlists, h⟩ := Bool.and_eq_true_iff.mp h
  obtain ⟨t, ht, h⟩ := exists_ok_of_any h
  obtain ⟨out, hout, h⟩ := exists_ok_of_any h
  exact ⟨s, t, hs, of_decide_eq_true hlists, ht, ⟨out, hout, beq_iff_eq.mp h⟩,
    Statement.filterBy_leaves (of_decide_eq_true hlists) ht⟩

end Sql
