import Sql.Proofs.PrintedParams
import Sql.Proofs.StagedShape
import Sql.Proofs.TablesInScope

/-!
# What staging leaves as it is

The stages of a document mention no parameter, and each reads a CTE that is in sight at its place
(`Scope.nameIn_ofCte`). So the parameters of a staged statement are those of the statement, and,
where its WITH clause is not recursive, so are its tables: the names of the stages then come into
sight only behind everything that was there before.

`Statement.toDocument_shape` puts this together with the shape of the stages.
-/

namespace Sql

/-! ## Parameters -/

/-- Nothing in a closed expression is a parameter, however deep one looks. -/
theorem Expr.Closed.no_params : (e : Expr) → e.Closed → e.params = []
  | e, h => by
    have hself : e ∈ e.nodes := by
      rw [Expr.nodes_eq]
      exact List.mem_cons_self
    obtain ⟨hs, hp⟩ := h e hself
    have hchildren : ∀ c ∈ e.children, c.params = [] := by
      intro c hc
      refine Expr.Closed.no_params c fun x hx => h x ?_
      rw [Expr.nodes_eq]
      exact List.mem_cons_of_mem _ (List.mem_flatMap.mpr ⟨c, hc, hx⟩)
    rw [Expr.params_eq, hs, hp, List.flatMap_eq_nil_iff.mpr hchildren]
    rfl
termination_by e => sizeOf e
decreasing_by exact Expr.sizeOf_lt_of_mem_children hc

theorem Select.ReadsOnly.sources {q : Select} {input : String} (h : q.ReadsOnly input) :
    q.sources = [.table [] input none] := by
  rw [Select.sources, h.source, h.joins]
  rfl

theorem Select.ReadsOnly.no_params {q : Select} {input : String} (h : q.ReadsOnly input) :
    (Body.select q).params = [] := by
  rw [Body.params_select, List.flatMap_eq_nil_iff]
  rintro (e | t) hpart
  · exact Expr.Closed.no_params e (h.closed e (Select.mem_exprs_of_mem_parts hpart))
  · have ht := Select.mem_sources_of_mem_parts hpart
    rw [h.sources] at ht
    obtain rfl := List.mem_singleton.mp ht
    rfl

theorem Cte.ReadsOnly.no_params {c : Cte} {input : String} (h : c.ReadsOnly input) :
    c.statement.params = [] := by
  obtain ⟨-, q, hq, hreads⟩ := h
  rw [hq, Statement.params_eq]
  exact hreads.no_params

theorem ReadInTurn.no_params {input output : String} {cs : List Cte}
    (h : ReadInTurn input cs output) : cs.flatMap (fun c => c.statement.params) = [] := by
  induction h with
  | nil _ => rfl
  | cons hc _ ih => rw [List.flatMap_cons, hc.no_params, ih, List.nil_append]

/-! ## Tables -/

theorem untaken_nil (ts : List TableName) : untaken [] ts = ts :=
  List.filter_eq_self.mpr fun t _ => by simp [TableName.takenBy, nameIn]

theorem Scope.seesAlso_nil {a b : Scope} (h : a.names = b.names) : a.SeesAlso [] b := by
  intro n
  rw [h]
  exact (Bool.or_false _).symm

/-- Which tables a body mentions depends on the names in scope. -/
theorem Body.tablesIn_of_names {a b : Scope} (h : a.names = b.names) (body : Body) :
    body.tablesIn a = body.tablesIn b := by
  rw [Body.tablesIn_seesAlso (Scope.seesAlso_nil h) body, untaken_nil]

/-- A select of a table that is a CTE in scope mentions no table. -/
theorem Select.ReadsOnly.no_tables {q : Select} {input : String} (h : q.ReadsOnly input)
    {scope : Scope} (hinput : nameIn input scope.names = true) :
    (Body.select q).tablesIn scope = [] := by
  have htaken : (TableName.mk [] input).takenBy scope.names = true := hinput
  have hnested : (q.exprs.flatMap Expr.nodes).filterMap Expr.statement? = [] := by
    rw [List.filterMap_eq_nil_iff]
    intro x hx
    obtain ⟨e, he, hx⟩ := List.mem_flatMap.mp hx
    exact (h.closed e he x hx).1
  rw [Body.tablesIn_select, h.sources, hnested, List.flatMap_singleton, Source.tablesIn_table,
    htaken]
  rfl

theorem Cte.ReadsOnly.no_tables {c : Cte} {input : String} (h : c.ReadsOnly input) {scope : Scope}
    (hinput : nameIn input scope.names = true) : c.statement.tablesIn scope = [] := by
  obtain ⟨-, q, hq, hreads⟩ := h
  rw [hq, Statement.tablesIn_eq]
  exact hreads.no_tables (by rwa [Scope.names_enter])

/-! ## What a CTE sees -/

/-- Entries of other names are passed over. -/
theorem findEntry_append_skip {n : String} {after : List CteEntry}
    (hafter : ∀ x ∈ after, sameName x.cte.name n = false) (before : List CteEntry) :
    findEntry n (after ++ before) = findEntry n before := by
  induction after with
  | nil => rfl
  | cons x after ih =>
    obtain ⟨hx, hafter⟩ := List.forall_mem_cons.mp hafter
    rw [List.cons_append, findEntry, if_neg (by simp [hx])]
    exact ih hafter

/-- What stands behind an entry stands behind the first entry of its name. -/
theorem findEntry_append_exists {n : String} {e : CteEntry} (he : sameName e.cte.name n = true)
    (after before : List CteEntry) :
    ∃ x own, findEntry n (after ++ e :: before) = some (x, own ++ before) := by
  induction after with
  | nil => exact ⟨e, [], by rw [List.nil_append, findEntry, if_pos he]; rfl⟩
  | cons x after ih =>
    rw [List.cons_append, findEntry]
    by_cases hx : sameName x.cte.name n = true
    · exact ⟨x, after ++ [e], by rw [if_pos hx, List.append_assoc]; rfl⟩
    · rw [if_neg hx]
      exact ih

/-- **A CTE sees the one before it,** whether or not its WITH clause is recursive. -/
theorem Scope.nameIn_ofCte {s : Statement} {pre post : List Cte} {p c : Cte}
    (hsplit : s.ctes = pre ++ p :: c :: post) (scope : Scope) :
    nameIn p.name ((scope.enter s).ofCte s.isRecursive c).names = true := by
  cases hrecursive : s.isRecursive with
  | true =>
    rw [ofCte, if_pos rfl, names_enter, nameIn_append, nameIn_reverse, hsplit, Bool.or_eq_true]
    exact .inl (nameIn_iff.mpr ⟨p.name, by simp, sameName_refl _⟩)
  | false =>
    have hentries : (scope.enter s).entries = (post.map fun c => ⟨c, false⟩).reverse
        ++ ⟨c, false⟩ :: (⟨p, false⟩ :: (pre.map fun c => ⟨c, false⟩).reverse ++ scope.entries) := by
      simp [enter, hsplit, hrecursive]
    obtain ⟨x, own, hfound⟩ := @findEntry_append_exists c.name ⟨c, false⟩ (sameName_refl c.name)
      (post.map fun c => ⟨c, false⟩).reverse
      (⟨p, false⟩ :: (pre.map fun c => ⟨c, false⟩).reverse ++ scope.entries)
    rw [ofCte, if_neg Bool.false_ne_true, find?, hentries, hfound]
    refine nameIn_iff.mpr ⟨p.name, ?_, sameName_refl _⟩
    show p.name ∈ (own ++ _).map _
    simp

/-- Stages that read one another mention no table. -/
theorem ReadInTurn.no_tables {input output : String} {cs : List Cte}
    (h : ReadInTurn input cs output) {t : Statement} {pre : List Cte} {p : Cte}
    (hp : p.name = input) (hsplit : t.ctes = pre ++ p :: cs) (scope : Scope) :
    cs.flatMap (fun c => c.statement.tablesIn ((scope.enter t).ofCte t.isRecursive c)) = [] := by
  induction h generalizing pre p with
  | nil _ => rfl
  | @cons _ _ c cs hc _ ih =>
    have hsees := Scope.nameIn_ofCte hsplit scope
    rw [hp] at hsees
    rw [List.flatMap_cons, hc.no_tables hsees, List.nil_append]
    have hrest : t.ctes = (pre ++ [p]) ++ c :: cs := by simp [hsplit]
    exact ih rfl hrest

/-! ## A statement under stages -/

/-- The first stage of a statement, its own body. -/
def Statement.originCte (s : Statement) : Cte := ⟨originStage, [], ⟨none, s.body⟩⟩

/-- The CTEs of the statement, its body as the first stage, more stages, and a final select. -/
def Statement.under (s : Statement) (stages : List Cte) (q : Select) : Statement :=
  ⟨some ⟨s.isRecursive, s.ctes ++ s.originCte :: stages⟩, .select q⟩

section

variable {s : Statement} {stages : List Cte} {q : Select} {output : String}

theorem Statement.params_under (hstages : ReadInTurn originStage stages output)
    (hq : q.ReadsOnly output) : (s.under stages q).params = s.params := by
  have hctes : (s.under stages q).ctes = s.ctes ++ s.originCte :: stages := rfl
  have hfinal : (s.under stages q).body.params = [] := hq.no_params
  have horigin : s.originCte.statement.params = s.body.params := Statement.params_eq ⟨none, s.body⟩
  rw [Statement.params_eq, hctes, hfinal, List.flatMap_append, List.flatMap_cons,
    hstages.no_params, horigin, List.append_nil, List.append_nil, Statement.params_eq s]

theorem Statement.entries_under (hrecursive : s.isRecursive = false) :
    (Scope.root (s.under stages q)).entries = (stages.map fun c => ⟨c, false⟩).reverse
      ++ ⟨s.originCte, false⟩ :: (Scope.root s).entries := by
  have hctes : (s.under stages q).ctes = s.ctes ++ s.originCte :: stages := rfl
  have hsame : (s.under stages q).isRecursive = s.isRecursive := rfl
  simp [Scope.root, Scope.enter, hctes, hsame, hrecursive, Scope.empty]

/-- A CTE of the statement sees what it saw: it is found where it was, behind all stages. -/
theorem Statement.ofCte_under (hrecursive : s.isRecursive = false)
    (hnames : ∀ c ∈ s.ctes, ∀ n ∈ originStage :: stages.map Cte.name, sameName n c.name = false)
    {c : Cte} (hc : c ∈ s.ctes) :
    (Scope.root (s.under stages q)).ofCte false c = (Scope.root s).ofCte false c := by
  have hfind : (Scope.root (s.under stages q)).find? c.name = (Scope.root s).find? c.name := by
    rw [Scope.find?, Scope.find?, Statement.entries_under hrecursive, List.append_cons,
      findEntry_append_skip]
    · rfl
    · intro x hx
      refine hnames c hc x.cte.name ?_
      simp only [List.mem_append, List.mem_reverse, List.mem_map, List.mem_singleton] at hx
      rcases hx with ⟨d, hd, rfl⟩ | rfl
      · exact List.mem_cons_of_mem _ (List.mem_map_of_mem hd)
      · exact List.mem_cons_self
  have hsome : ((Scope.root s).find? c.name).isSome := by
    rw [Scope.isSome_find?, Scope.names_root, nameIn_reverse]
    exact nameIn_iff.mpr ⟨c.name, List.mem_map_of_mem hc, sameName_refl _⟩
  obtain ⟨⟨x, before⟩, hx⟩ := Option.isSome_iff_exists.mp hsome
  rw [Scope.ofCte, Scope.ofCte, hfind, hx]
  rfl

/-- The body sees the same CTEs from inside the first stage. -/
theorem Statement.names_ofCte_under (hrecursive : s.isRecursive = false)
    (horigin : ∀ c ∈ stages, sameName c.name originStage = false) :
    ((Scope.root (s.under stages q)).ofCte false s.originCte).names = (Scope.root s).names := by
  have hfind : findEntry originStage (Scope.root (s.under stages q)).entries
      = some (⟨s.originCte, false⟩, (Scope.root s).entries) := by
    rw [Statement.entries_under hrecursive]
    refine findEntry_append_of_names (fun x hx => ?_) (sameName_refl _)
    obtain ⟨c, hc, rfl⟩ := List.mem_map.mp (List.mem_reverse.mp hx)
    exact horigin c hc
  have hname : s.originCte.name = originStage := rfl
  rw [Scope.ofCte, if_neg Bool.false_ne_true, Scope.find?, hname, hfind]
  rfl

/-- **Stages that read one another bring no table and take none,** where the WITH clause is not
recursive: their names come into sight behind everything that was there before. -/
theorem Statement.tablesIn_under (hstages : ReadInTurn originStage stages output)
    (hq : q.ReadsOnly output) (houtput : output ∈ stages.map Cte.name)
    (hrecursive : s.isRecursive = false)
    (horigin : ∀ c ∈ stages, sameName c.name originStage = false)
    (hnames : ∀ c ∈ s.ctes, ∀ n ∈ originStage :: stages.map Cte.name, sameName n c.name = false) :
    (s.under stages q).tablesIn .empty = s.tablesIn .empty := by
  -- the statement's CTEs and its body see no stage, and the stages and the new body see no table
  have hctes : (s.under stages q).ctes = s.ctes ++ s.originCte :: stages := rfl
  have hsame : (s.under stages q).isRecursive = false := hrecursive
  have hown : s.ctes.flatMap (fun c => c.statement.tablesIn
        ((Scope.root (s.under stages q)).ofCte false c))
      = s.ctes.flatMap fun c => c.statement.tablesIn ((Scope.root s).ofCte false c) :=
    List.flatMap_congr fun c hc => by rw [Statement.ofCte_under hrecursive hnames hc]
  have hbody : s.originCte.statement.tablesIn
        ((Scope.root (s.under stages q)).ofCte false s.originCte)
      = s.body.tablesIn (Scope.root s) := by
    rw [Statement.tablesIn_eq]
    refine Body.tablesIn_of_names ?_ s.body
    rw [Scope.names_enter]
    exact Statement.names_ofCte_under hrecursive horigin
  have hturn : stages.flatMap (fun c => c.statement.tablesIn
      ((Scope.root (s.under stages q)).ofCte (s.under stages q).isRecursive c)) = [] :=
    hstages.no_tables rfl hctes .empty
  have hfinal : (s.under stages q).body.tablesIn (Scope.root (s.under stages q)) = [] := by
    refine hq.no_tables ?_
    rw [Scope.names_root, nameIn_reverse, hctes]
    exact nameIn_iff.mpr ⟨output, by simp [List.mem_map.mp houtput], sameName_refl _⟩
  rw [hsame] at hturn
  calc (s.under stages q).tablesIn .empty
      = (s.ctes ++ s.originCte :: stages).flatMap (fun c => c.statement.tablesIn
          ((Scope.root (s.under stages q)).ofCte false c))
        ++ (s.under stages q).body.tablesIn (Scope.root (s.under stages q)) := by
          rw [Statement.tablesIn_eq, hctes, hsame]
          rfl
    _ = s.ctes.flatMap (fun c => c.statement.tablesIn ((Scope.root s).ofCte false c))
        ++ s.body.tablesIn (Scope.root s) := by
          rw [List.flatMap_append, List.flatMap_cons, hown, hbody, hturn, hfinal, List.append_nil,
            List.append_nil]
    _ = s.tablesIn .empty := by
          rw [Statement.tablesIn_eq Scope.empty s, hrecursive]
          rfl

end

/-! ## The whole document -/

variable {m : Mapping}

/-- No stage behind the first has its name. -/
theorem sameName_originStage_of_made {n : String}
    (hn : n ∈ m.depths.flatMap m.levelStages ++ [rootStage m.rootName]) :
    sameName n originStage = false := by
  rw [sameName_comm]
  rcases List.mem_append.mp hn with hn | hn
  · obtain ⟨d, -, hn⟩ := List.mem_flatMap.mp hn
    rcases Mapping.mem_levelStages hn with rfl | ⟨e, -, -, rfl⟩
    · exact sameName_originStage_object d
    · exact sameName_originStage_array e.id
  · obtain rfl := List.mem_singleton.mp hn
    exact sameName_originStage_root m.rootName

/-- **The shape of a document, and what it leaves as it is.** Behind the CTEs of the statement and
its body come the stages of every depth, from the deepest up, and the root stage; each reads the one
before it. The parameters are those of the statement, and so are the tables, unless the WITH clause
is recursive. -/
theorem Statement.toDocument_shape {s t : Statement} {lookup : Option Lookup}
    (h : s.toDocument m lookup = .ok t) :
    (∃ levels root q,
        t = ⟨some ⟨s.isRecursive, s.ctes ++ ⟨originStage, [], ⟨none, s.body⟩⟩
          :: (levels.flatten ++ [root])⟩, .select q⟩
      ∧ List.Forall₂ m.IsLevel m.depths levels
      ∧ m.IsRootStage root
      ∧ ReadInTurn originStage (levels.flatten ++ [root]) root.name ∧ q.ReadsOnly root.name)
    ∧ t.paramUses = s.paramUses ∧ t.anonymousCount = s.anonymousCount
    ∧ (s.isRecursive = false → t.tables = s.tables) := by
  obtain ⟨origin, resolved, hvalid, -, -, hclash, rfl⟩ := toDocument_eq_ok h
  obtain ⟨levels, hstages, hlevels, hturn⟩ :=
    @stagesOf_shape m resolved (Mapping.isTree_of_validate hvalid) origin.names
  obtain ⟨root, hroot, hshape⟩ : ∃ root,
      root = rootStageOf m resolved (stagesOf m resolved origin.names).current
        ∧ m.IsRootStage root := ⟨_, rfl, rfl, _, _, rfl, rfl, rfl⟩
  have hname : root.name = rootStage m.rootName := hshape.1
  have hall : ReadInTurn originStage (levels.flatten ++ [root]) root.name :=
    hturn.append (.single (hroot ▸ rootStageOf_readsOnly _))
  have hq : (documentSelect m).ReadsOnly root.name := hname ▸ documentSelect_readsOnly m
  have hunder : s.staged m resolved origin.names
      = s.under (levels.flatten ++ [root]) (documentSelect m) := by
    rw [Statement.staged, hstages, ← hroot, List.append_assoc]
    rfl
  have hmade : (levels.flatten ++ [root]).map Cte.name
      = m.depths.flatMap m.levelStages ++ [rootStage m.rootName] := by
    rw [List.map_append, ← hstages, stagesOf_names, ← hname]
    rfl
  have hparams : (s.staged m resolved origin.names).params = s.params := by
    rw [hunder, Statement.params_under hall hq]
  refine ⟨⟨levels, root, documentSelect m, hunder, hlevels, hshape, hall, hq⟩, ?_, ?_, ?_⟩
  · rw [Statement.paramUses, hparams, Statement.paramUses]
  · rw [Statement.anonymousCount, hparams, Statement.anonymousCount]
  · intro hrecursive
    rw [Statement.tables, hunder, Statement.tablesIn_under hall hq ?_ hrecursive ?_ ?_]
    · rfl
    · rw [hmade, hname]
      exact List.mem_append_right _ List.mem_cons_self
    · intro c hc
      refine @sameName_originStage_of_made m _ ?_
      rw [← hmade]
      exact List.mem_map_of_mem hc
    · -- the refusals have looked at the names of all stages
      intro c hc n hn
      have hn : n ∈ m.madeStages := by
        rw [hmade] at hn
        exact hn
      rw [sameName_comm]
      exact nameIn_eq_false.mp (nameIn_stageNames_of_nameClash? hclash c hc) n
        (Mapping.madeStages_subset n hn)

theorem toDocument_shape_itemizedOrders : ∃ s t levels root q,
    parse "with c as (select * from t where k = :k) select id, order_no, sku from c where n = ?"
        = .ok s
      ∧ s.toDocument itemizedOrders none = .ok t
      ∧ t.ctes.map Cte.name = ["c", "origin_query", "cte_object_depth_2", "cte_array_item",
        "cte_object_depth_1", "cte_array_order", "cte_root_users"]
      ∧ t = ⟨some ⟨s.isRecursive, s.ctes ++ ⟨originStage, [], ⟨none, s.body⟩⟩
          :: (levels.flatten ++ [root])⟩, .select q⟩
      ∧ List.Forall₂ itemizedOrders.IsLevel itemizedOrders.depths levels
      ∧ itemizedOrders.IsRootStage root
      ∧ ReadInTurn originStage (levels.flatten ++ [root]) root.name ∧ q.ReadsOnly root.name
      ∧ t.paramUses = s.paramUses ∧ t.anonymousCount = 1
      ∧ t.tables = [⟨[], "t"⟩] := by
  obtain ⟨s, hs, h⟩ := exists_ok_of_any
    (show (parse
        "with c as (select * from t where k = :k) select id, order_no, sku from c where n = ?"
      ).toOption.any
      (fun s => decide (s.anonymousCount = 1 ∧ s.tables = [⟨[], "t"⟩] ∧ s.isRecursive = false)
        && (s.toDocument itemizedOrders none).toOption.any fun t =>
          decide (t.ctes.map Cte.name = ["c", "origin_query", "cte_object_depth_2",
            "cte_array_item", "cte_object_depth_1", "cte_array_order", "cte_root_users"])) = true
      by decide +kernel)
  obtain ⟨hstatement, h⟩ := (Bool.and_eq_true _ _).mp h
  obtain ⟨hcount, htables, hrecursive⟩ := of_decide_eq_true hstatement
  obtain ⟨t, ht, hnames⟩ := exists_ok_of_any h
  obtain ⟨⟨levels, root, q, heq, hlevels, hroot, hturn, hq⟩, huses, hanonymous, hsame⟩ :=
    Statement.toDocument_shape ht
  exact ⟨s, t, levels, root, q, hs, ht, of_decide_eq_true hnames, heq, hlevels, hroot, hturn, hq,
    huses, hanonymous.trans hcount, (hsame hrecursive).trans htables⟩

end Sql
