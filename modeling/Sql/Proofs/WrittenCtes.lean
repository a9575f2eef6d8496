import Mathlib.Data.List.Forall2
import Sql.Proofs.CteOrder
import Sql.Proofs.ReadBack

/-!
# Definitions in printed text

A definition is a name, perhaps a list of columns, AS and a statement in parentheses. No other part
of a statement is printed with a parenthesis behind AS: an alias puts a name there and a cast a
type. So the definitions of a text can be read off its fragments (`Fragment.definedNames`).

* `Defines`: the definitions among fragments, whatever stands before them.
* `Statement.definesNames`: the fragments of a statement define the names of its definitions, in the
  order of the walk `Statement.ctesInOrder`.
* `Statement.allCtes_printed`: the collector lists what the text defines, in the order of the text
  if no definition is printed before a part that is collected first.
-/

namespace Sql

/-! ## Definitions among fragments -/

namespace Fragment

/-- The name in front of a list of columns, read from the right. -/
def listOwner? : List Fragment → Option String
  | text " (" :: name n :: _ => some n
  | _ :: before => listOwner? before
  | [] => none

/-- The name that a definition gives, read from the right: the name itself, or the one in front of a
list of columns. -/
def headName? : List Fragment → Option String
  | name n :: _ => some n
  | text ")" :: before => listOwner? before
  | _ => none

/-- The name that is defined by a fragment behind others: a parenthesis that opens behind AS. The
fragments before it are read from the right. -/
def definedName? : List Fragment → Fragment → Option String
  | text " " :: keyword "as" :: text " " :: before, text "(" => headName? before
  | _, _ => none

/-- The names that are defined among fragments, in order. -/
def definedNames (before : List Fragment) : List Fragment → List String
  | [] => []
  | f :: fs => (definedName? before f).toList ++ definedNames (f :: before) fs

theorem definedNames_append (before fs gs : List Fragment) :
    definedNames before (fs ++ gs)
      = definedNames before fs ++ definedNames (fs.reverse ++ before) gs := by
  induction fs generalizing before with
  | nil => rfl
  | cons f fs ih => simp [definedNames, ih]

/-- The fragments, read from the right, do not end in AS. -/
def Settled (before : List Fragment) : Prop :=
  ∀ rest, before ≠ keyword "as" :: rest ∧ before ≠ text " " :: keyword "as" :: rest

theorem settled_nil : Settled [] := fun _ => ⟨nofun, nofun⟩

theorem Settled.cons {before : List Fragment} (h : Settled before) {f : Fragment}
    (hf : f ≠ keyword "as") : Settled (f :: before) := by
  refine fun rest => ⟨fun heq => hf (List.cons.inj heq).1, fun heq => ?_⟩
  exact (h rest).1 (List.cons.inj heq).2

theorem Settled.definedName? {before : List Fragment} (h : Settled before) (f : Fragment) :
    definedName? before f = none := by
  unfold Fragment.definedName?
  split
  · exact absurd rfl (h _).2
  · rfl

/-- Behind fragments that do not end in AS, these fragments define these names, and do not end in AS
either. -/
def Defines (fs : List Fragment) (ns : List String) : Prop :=
  ∀ before, Settled before → definedNames before fs = ns ∧ Settled (fs.reverse ++ before)

theorem defines_nil : Defines [] [] := fun _ h => ⟨rfl, h⟩

theorem Defines.append {fs gs : List Fragment} {ns ms : List String} (hfs : Defines fs ns)
    (hgs : Defines gs ms) : Defines (fs ++ gs) (ns ++ ms) := by
  intro before h
  obtain ⟨hns, hsettled⟩ := hfs before h
  obtain ⟨hms, hlast⟩ := hgs _ hsettled
  rw [definedNames_append, hns, hms, List.reverse_append, List.append_assoc]
  exact ⟨rfl, hlast⟩

theorem Defines.cons {f : Fragment} {fs : List Fragment} {ns : List String} (hfs : Defines fs ns)
    (hf : f ≠ keyword "as") : Defines (f :: fs) ns := by
  intro before h
  obtain ⟨hns, hlast⟩ := hfs (f :: before) (h.cons hf)
  rw [definedNames, h.definedName?, hns, List.reverse_cons, List.append_assoc]
  exact ⟨rfl, hlast⟩

/-- No AS is printed. -/
def Quiet (fs : List Fragment) : Prop := ∀ f ∈ fs, f ≠ keyword "as"

theorem quiet_nil : Quiet [] := fun _ hf => absurd hf List.not_mem_nil

theorem Quiet.defines {fs : List Fragment} (h : Quiet fs) : Defines fs [] := by
  induction fs with
  | nil => exact defines_nil
  | cons f fs ih =>
    exact (ih fun g hg => h g (List.mem_cons_of_mem _ hg)).cons (h f List.mem_cons_self)

theorem Defines.after {fs gs : List Fragment} {ns : List String} (hgs : Defines gs ns)
    (hfs : Quiet fs) : Defines (fs ++ gs) ns :=
  hfs.defines.append hgs

theorem Defines.before {fs gs : List Fragment} {ns : List String} (hfs : Defines fs ns)
    (hgs : Quiet gs) : Defines (fs ++ gs) ns := by
  have h := hfs.append hgs.defines
  rwa [List.append_nil] at h

theorem defines_joined {separator : List Fragment} (hseparator : Quiet separator)
    {parts : List (List Fragment)} {nss : List (List String)} (h : List.Forall₂ Defines parts nss) :
    Defines (joined separator parts) nss.flatten := by
  induction h with
  | nil => exact defines_nil
  | cons hfirst hrest ih =>
    cases hrest with
    | nil => simpa [joined] using hfirst
    | cons hsecond hrest =>
      rw [joined, List.intercalate_cons_cons, List.flatten_cons]
      exact (hfirst.before hseparator).append ih

/-- Parts between commas. -/
theorem defines_commaList {parts : List (List Fragment)} {nss : List (List String)}
    (h : List.Forall₂ Defines parts nss) : Defines (joined [text ", "] parts) nss.flatten :=
  defines_joined (by simp [Quiet]) h

theorem forall_mem_joined {P : Fragment → Prop} {separator : List Fragment}
    (hseparator : ∀ f ∈ separator, P f) {parts : List (List Fragment)}
    (hparts : ∀ fs ∈ parts, ∀ f ∈ fs, P f) : ∀ f ∈ joined separator parts, P f := by
  induction parts with
  | nil => exact fun f hf => absurd hf List.not_mem_nil
  | cons fs parts ih =>
    rw [List.forall_mem_cons] at hparts
    cases parts with
    | nil => simpa [joined] using hparts.1
    | cons gs parts =>
      rw [joined, List.intercalate_cons_cons]
      exact List.forall_mem_append.mpr
        ⟨List.forall_mem_append.mpr ⟨hparts.1, hseparator⟩, ih hparts.2⟩

theorem quiet_names (ns : List String) : Quiet (names ns) :=
  forall_mem_joined (by simp) (by simp)

theorem quiet_dottedName (path : List String) (n : String) : Quiet (dottedName path n) :=
  forall_mem_joined (by simp) (List.forall_mem_map.mpr (by simp))

/-- An alias is no definition: a name stands behind its AS. -/
theorem defines_alias? (a : Option String) : Defines (alias? a) [] := by
  cases a with
  | none => exact defines_nil
  | some a =>
    intro before h
    have hblank := h.cons (f := text " ") (by simp)
    have hlast : Settled (name a :: text " " :: keyword "as" :: text " " :: before) :=
      fun rest => ⟨by simp, by simp⟩
    refine ⟨?_, hlast⟩
    simp [alias?, definedNames, definedName?]

/-- A type behind AS is no definition, and neither is a string behind the name of its type. -/
theorem defines_keyword_text (word : String) {s : String} (hs : s ≠ " ") :
    Defines [keyword word, text s] [] := by
  intro before h
  refine ⟨?_, fun rest => ⟨by simp, by simp [hs]⟩⟩
  simp [definedNames, definedName?]

theorem defines_inParens {fs : List Fragment} {ns : List String} (h : Defines fs ns) :
    Defines (inParens fs) ns :=
  (h.cons (by simp)).before (by simp [Quiet])

/-! ## The head of a definition -/

theorem listOwner?_names {fs : List Fragment} (h : ∀ f ∈ fs, f ≠ text " (") (n : String)
    (before : List Fragment) : listOwner? (fs ++ text " (" :: name n :: before) = some n := by
  induction fs with
  | nil => rfl
  | cons f fs ih =>
    rw [List.forall_mem_cons] at h
    rw [List.cons_append, listOwner?, ih h.2]
    exact fun _ _ heq _ => h.1 heq

/-- The columns of a definition. -/
def columnFragments (columns : List String) : List Fragment :=
  if columns.isEmpty then [] else text " (" :: names columns ++ [text ")"]

theorem quiet_columns (columns : List String) : Quiet (columnFragments columns) := by
  unfold columnFragments
  split
  · exact quiet_nil
  · have hnames := quiet_names columns
    simp only [Quiet, List.cons_append, List.forall_mem_cons, List.forall_mem_append]
    exact ⟨by simp, hnames, by simp⟩

theorem headName?_columns (n : String) (columns : List String) (before : List Fragment) :
    headName? ((columnFragments columns).reverse ++ name n :: before) = some n := by
  unfold columnFragments
  split
  · rfl
  · have hnames : ∀ f ∈ names columns, f ≠ text " (" := forall_mem_joined (by simp) (by simp)
    simpa [headName?] using
      listOwner?_names (fun f hf => hnames f (List.mem_reverse.mp hf)) n before

/-- The head of a definition defines its name. -/
theorem defines_head (n : String) (columns : List String) :
    Defines (name n :: columnFragments columns ++ [text " ", keyword "as", text " ", text "("])
      [n] := by
  intro before h
  have hhead : Quiet (name n :: columnFragments columns) :=
    List.forall_mem_cons.mpr ⟨by simp, quiet_columns columns⟩
  refine ⟨?_, fun rest => ⟨by simp, by simp⟩⟩
  rw [definedNames_append, (hhead.defines before h).1]
  simp [definedNames, definedName?, headName?_columns]

end Fragment

open Fragment

/-! ## Names of definitions -/

/-- The names of the definitions below an expression, in printed order. -/
def Expr.cteNames (e : Expr) : List String := e.ctesInOrder.map Cte.name

/-- The names of the definitions in a FROM source, in printed order. -/
def Source.cteNames (t : Source) : List String := t.ctesInOrder.map Cte.name

/-- The names of the definitions in a body, in printed order. -/
def Body.cteNames (b : Body) : List String := b.ctesInOrder.map Cte.name

/-- The names of the definitions in a statement, in printed order. -/
def Statement.cteNames (s : Statement) : List String := s.ctesInOrder.map Cte.name

theorem Expr.cteNames_eq (e : Expr) :
    e.cteNames
      = e.children.flatMap Expr.cteNames ++ e.statement?.toList.flatMap Statement.cteNames := by
  rw [cteNames, ctesInOrder_eq, parts, List.flatMap_append, List.flatMap_map, List.flatMap_map,
    List.map_append, List.map_flatMap, List.map_flatMap]
  rfl

theorem Source.cteNames_eq (t : Source) :
    t.cteNames = t.statement?.toList.flatMap Statement.cteNames := by
  rw [cteNames, ctesInOrder, List.map_flatMap]
  rfl

theorem Body.cteNames_select (q : Select) :
    (Body.select q).cteNames = q.parts.flatMap fun p => p.elim Expr.cteNames Source.cteNames := by
  rw [cteNames, ctesInOrder_select, List.map_flatMap]
  congr 1
  funext p
  cases p <;> rfl

theorem Body.cteNames_setOp (left right : Body) (op : SetOperator) :
    (Body.setOp left op right).cteNames = left.cteNames ++ right.cteNames := by
  rw [cteNames, ctesInOrder_setOp, List.map_append]
  rfl

theorem Body.cteNames_nested (s : Statement) : (Body.nested s).cteNames = s.cteNames := by
  rw [cteNames, ctesInOrder_nested]
  rfl

theorem Statement.cteNames_eq (s : Statement) :
    s.cteNames = s.ctes.flatMap (fun c => c.name :: c.statement.cteNames) ++ s.body.cteNames := by
  rw [cteNames, ctesInOrder_eq, List.map_append, List.map_flatMap]
  rfl

/-! ## One node

Each node defines the names of its definitions if its parts do. -/

/-- The expression defines the names of the definitions below it, at every depth. -/
def Expr.DefinesNames (e : Expr) : Prop :=
  ∀ depth condition, Defines (e.fragments depth condition) e.cteNames

/-- The statement defines the names of its definitions, at every depth. -/
def Statement.DefinesNames (s : Statement) : Prop :=
  ∀ depth, Defines (s.fragments depth) s.cteNames

theorem blank_append_ne {s : String} (h : s.length ≠ 0) : " " ++ s ≠ " " := by
  intro heq
  have hlength := congrArg String.length heq
  have hblank : " ".length = 1 := rfl
  rw [String.length_append] at hlength
  omega

theorem Literal.defines_fragments (l : Literal) : Defines l.fragments [] := by
  cases l with
  | typed type value =>
    exact defines_keyword_text type (blank_append_ne (by simp [quotedString]))
  | boolean b => cases b <;> exact Quiet.defines (by simp [Quiet, fragments])
  | _ => exact Quiet.defines (by simp [Quiet, fragments])

theorem defines_operand {fs : List Fragment} {ns : List String} (h : Defines fs ns) (strength : Nat)
    (onRight : Bool) (e : Expr) : Defines (operand strength onRight e fs) ns := by
  unfold operand
  split
  · exact defines_inParens h
  · exact h

theorem BinaryOp.quiet_fragments (op : BinaryOp) : Quiet op.fragments := by
  cases op <;> simp [Quiet, fragments, isWord, symbol]

theorem UnaryOp.quiet_fragments (op : UnaryOp) : Quiet op.fragments := by
  cases op <;> simp [Quiet, fragments]

theorem quiet_predicateWord {word negatedWord : String} (hword : word ≠ "as")
    (hnegated : negatedWord ≠ "as") (negated : Bool) :
    Quiet (predicateWord word negatedWord negated) := by
  cases negated <;> simp [Quiet, predicateWord, hword, hnegated]

theorem quiet_predicateText {word negatedWord : String} (hword : word ≠ "as")
    (hnegated : negatedWord ≠ "as") (negated : Bool) (s : String) :
    Quiet (predicateWord word negatedWord negated ++ [text s]) :=
  List.forall_mem_append.mpr ⟨quiet_predicateWord hword hnegated negated, by simp⟩

theorem quiet_directionFragments (d : Option SortDirection) : Quiet (directionFragments d) := by
  rcases d with _ | ⟨_ | _⟩ <;> simp [Quiet, directionFragments]

theorem quiet_nullsFragments (n : Option NullsOrder) : Quiet (nullsFragments n) := by
  rcases n with _ | ⟨_ | _⟩ <;> simp [Quiet, nullsFragments]

theorem defines_clauseFragments {fs : List Fragment} {ns : List String} (h : Defines fs ns)
    (depth : Nat) {word : String} (hword : word ≠ "as") :
    Defines (clauseFragments depth word fs) ns :=
  ((h.cons (by simp)).cons (by simpa using hword)).cons (by simp)

theorem defines_listClause {parts : List (List Fragment)} {nss : List (List String)}
    (h : List.Forall₂ Defines parts nss) (depth : Nat) {word : String} (hword : word ≠ "as") :
    Defines (listClause depth word parts) nss.flatten := by
  unfold listClause
  split
  · next hempty =>
    obtain rfl := List.isEmpty_iff.mp hempty
    cases h
    exact defines_nil
  · exact defines_clauseFragments (defines_joined (by simp [Quiet]) h) depth hword

theorem defines_block {fs : List Fragment} {ns : List String} (h : Defines fs ns) (depth : Nat) :
    Defines (block depth fs) ns :=
  ((h.cons (by simp)).cons (by simp)).before (by simp [Quiet])

theorem defines_optionFragments {e : Option Expr} (h : ∀ x ∈ e.toList, x.DefinesNames)
    (depth : Nat) (condition : Bool) {before after : List Fragment} (hbefore : Quiet before)
    (hafter : Quiet after) :
    Defines (optionFragments depth condition before after e) (e.toList.flatMap Expr.cteNames) := by
  cases e with
  | none =>
    rw [optionFragments]
    exact defines_nil
  | some x =>
    rw [optionFragments]
    simpa using ((h x (by simp) depth condition).after hbefore).before hafter

theorem defines_exprFragments {es : List Expr} (h : ∀ e ∈ es, e.DefinesNames) (depth : Nat) :
    List.Forall₂ Defines (exprFragments depth es) (es.map Expr.cteNames) := by
  induction es with
  | nil =>
    rw [exprFragments]
    exact .nil
  | cons e es ih =>
    rw [List.forall_mem_cons] at h
    rw [exprFragments]
    exact .cons (h.1 depth false) (ih h.2)

theorem defines_branchFragments {bs : List Branch}
    (h : ∀ e ∈ bs.flatMap fun b => [b.condition, b.result], e.DefinesNames) (depth : Nat) :
    Defines (branchFragments depth bs)
      ((bs.flatMap fun b => [b.condition, b.result]).flatMap Expr.cteNames) := by
  induction bs with
  | nil =>
    rw [branchFragments]
    exact defines_nil
  | cons b bs ih =>
    obtain ⟨c, r⟩ := b
    simp only [List.flatMap_cons, List.forall_mem_append, List.forall_mem_cons] at h
    obtain ⟨⟨hc, hr, -⟩, hbs⟩ := h
    have hwhen := (hc depth false).after
      (show Quiet [text " ", keyword "when", text " "] by simp [Quiet])
    have hthen := (hr depth false).after
      (show Quiet [text " ", keyword "then", text " "] by simp [Quiet])
    rw [branchFragments]
    simpa using (hwhen.append hthen).append (ih hbs)

theorem defines_orderFragments {os : List OrderItem}
    (h : ∀ e ∈ os.map OrderItem.expr, e.DefinesNames) (depth : Nat) :
    List.Forall₂ Defines (orderFragments depth os)
      ((os.map OrderItem.expr).map Expr.cteNames) := by
  induction os with
  | nil =>
    rw [orderFragments]
    exact .nil
  | cons o os ih =>
    obtain ⟨e, d, n⟩ := o
    rw [List.map_cons, List.forall_mem_cons] at h
    rw [orderFragments]
    exact .cons (((h.1 depth false).before (quiet_directionFragments d)).before
      (quiet_nullsFragments n)) (ih h.2)

theorem defines_itemFragments {is : List SelectItem}
    (h : ∀ e ∈ is.map SelectItem.expr, e.DefinesNames) (depth : Nat) :
    List.Forall₂ Defines (itemFragments depth is)
      ((is.map SelectItem.expr).map Expr.cteNames) := by
  induction is with
  | nil =>
    rw [itemFragments]
    exact .nil
  | cons i is ih =>
    obtain ⟨e, a⟩ := i
    rw [List.map_cons, List.forall_mem_cons] at h
    rw [itemFragments]
    have hitem := (h.1 depth false).append (defines_alias? a)
    rw [List.append_nil] at hitem
    exact .cons hitem (ih h.2)

theorem Window.defines_fragments {w : Window} (h : ∀ e ∈ w.exprs, e.DefinesNames) (depth : Nat) :
    Defines (w.fragments depth) (w.exprs.flatMap Expr.cteNames) := by
  obtain ⟨partitionBy, orderBy⟩ := w
  simp only [exprs, List.forall_mem_append] at h
  have hp := defines_commaList (defines_exprFragments h.1 depth)
  have ho := defines_commaList (defines_orderFragments h.2 depth)
  have hpartition := hp.after (show Quiet [keyword "partition by", text " "] by simp [Quiet])
  have horder := ho.after (show Quiet [keyword "order by", text " "] by simp [Quiet])
  rw [Window.fragments]
  have hblank : Quiet [text " "] := by simp [Quiet]
  cases partitionBy with
  | nil =>
    cases orderBy with
    | nil => exact defines_nil
    | cons o os => simpa [joined, exprs, List.flatMap_def] using horder
  | cons p ps =>
    cases orderBy with
    | nil => simpa [joined, exprs, List.flatMap_def] using hpartition
    | cons o os =>
      simpa [exprs, List.flatMap_def] using
        defines_joined hblank (.cons hpartition (.cons horder .nil))

theorem defines_overFragments {window : Option Window}
    (h : ∀ e ∈ window.toList.flatMap Window.exprs, e.DefinesNames) (depth : Nat) :
    Defines (overFragments depth window)
      ((window.toList.flatMap Window.exprs).flatMap Expr.cteNames) := by
  cases window with
  | none =>
    rw [overFragments]
    exact defines_nil
  | some w =>
    have hw := Window.defines_fragments (w := w) (by simpa using h) depth
    rw [overFragments]
    simpa using (hw.after (show Quiet [text " ", keyword "over", text " ("] by simp [Quiet])).before
      (show Quiet [text ")"] by simp [Quiet])

/-- An expression defines the names of its definitions if its children and its nested statement
do. -/
theorem Expr.definesNames_of_parts {e : Expr} (hchildren : ∀ c ∈ e.children, c.DefinesNames)
    (hstatement : ∀ s ∈ e.statement?, s.DefinesNames) : e.DefinesNames := by
  intro depth condition
  rw [cteNames_eq]
  cases e with
  | column c =>
    rw [fragments]
    exact (quiet_dottedName c.path c.name).defines
  | star q => cases q <;> rw [fragments] <;> exact Quiet.defines (by simp [Quiet])
  | literal l =>
    rw [fragments]
    exact l.defines_fragments
  | param p =>
    rw [fragments]
    exact Quiet.defines (by simp [Quiet])
  | call n args distinct filter window =>
    simp only [children, List.forall_mem_append] at hchildren
    obtain ⟨⟨hargs, hfilter⟩, hwindow⟩ := hchildren
    have ha := defines_commaList (defines_exprFragments hargs depth)
    have hopen : Quiet [text " ", keyword "filter", text " (", keyword "where", text " "] := by
      simp [Quiet]
    have hclose : Quiet [text ")"] := by simp [Quiet]
    have hf := defines_optionFragments hfilter depth false hopen hclose
    have hhead : Quiet (function n :: text "("
        :: if distinct then [keyword "distinct", text " "] else []) := by
      cases distinct <;> simp [Quiet]
    have hcall := (((ha.after hhead).before hclose).append hf).append
      (defines_overFragments hwindow depth)
    rw [fragments]
    simpa [children, statement?, List.flatMap_def] using hcall
  | binary l op r =>
    simp only [children, List.forall_mem_cons] at hchildren
    obtain ⟨hl, hr, -⟩ := hchildren
    have hop : Quiet (if condition && op == .and then [conjunction depth] else op.fragments) := by
      split
      · simp [Quiet]
      · exact op.quiet_fragments
    rw [fragments]
    simpa [children, statement?] using
      ((defines_operand (hl depth (condition && op == .and)) op.strength false l).before hop).append
        (defines_operand (hr depth false) op.strength true r)
  | between e low high negated =>
    simp only [children, List.forall_mem_cons] at hchildren
    obtain ⟨he, hlow, hhigh, -⟩ := hchildren
    have hword := quiet_predicateText (show "between" ≠ "as" by simp)
      (show "not between" ≠ "as" by simp) negated " "
    have hand : Quiet [text " ", keyword "and", text " "] := by simp [Quiet]
    rw [fragments]
    simpa [children, statement?] using
      ((((defines_operand (he depth false) strengthComparison false e).before hword).append
        (defines_operand (hlow depth false) (strengthComparison + 1) false low)).before hand).append
        (defines_operand (hhigh depth false) (strengthComparison + 1) false high)
  | inList e items negated =>
    simp only [children, List.forall_mem_cons] at hchildren
    have hword := quiet_predicateText (show "in" ≠ "as" by simp) (show "not in" ≠ "as" by simp)
      negated " ("
    have hitems := defines_commaList (defines_exprFragments hchildren.2 depth)
    rw [fragments]
    simpa [children, statement?, List.flatMap_def] using
      (((defines_operand (hchildren.1 depth false) strengthComparison false e).before
        hword).append hitems).before (show Quiet [text ")"] by simp [Quiet])
  | inQuery e s negated =>
    simp only [children, List.forall_mem_cons] at hchildren
    have hword := quiet_predicateText (show "in" ≠ "as" by simp) (show "not in" ≠ "as" by simp)
      negated " "
    rw [fragments]
    simpa [children, statement?] using
      ((defines_operand (hchildren.1 depth false) strengthComparison false e).before hword).append
        (defines_block (hstatement s rfl (depth + 1)) depth)
  | hasRows s =>
    rw [fragments]
    simpa [children, statement?] using
      (defines_block (hstatement s rfl (depth + 1)) depth).after
        (show Quiet [keyword "exists", text " "] by simp [Quiet])
  | subquery s =>
    rw [fragments]
    simpa [children, statement?] using defines_block (hstatement s rfl (depth + 1)) depth
  | case scrutinee branches fallback =>
    simp only [children, List.forall_mem_append] at hchildren
    obtain ⟨⟨hscrutinee, hbranches⟩, hfallback⟩ := hchildren
    have hblank : Quiet [text " "] := by simp [Quiet]
    have helse : Quiet [text " ", keyword "else", text " "] := by simp [Quiet]
    have hs := defines_optionFragments hscrutinee depth false hblank quiet_nil
    have hf := defines_optionFragments hfallback depth false helse quiet_nil
    rw [fragments]
    simpa [children, statement?] using
      (((hs.append (defines_branchFragments hbranches depth)).append hf).before
        (show Quiet [text " ", keyword "end"] by simp [Quiet])).cons (f := keyword "case") (by simp)
  | cast e type short =>
    simp only [children, List.forall_mem_cons] at hchildren
    cases short with
    | true =>
      rw [fragments]
      simpa [children, statement?] using
        (defines_operand (hchildren.1 depth false) strengthCast false e).before
          (show Quiet [text ("::" ++ type)] by simp [Quiet])
    | false =>
      -- AS and a blank by itself belong to a definition; a cast prints the type with the blank
      have htype : " " ++ type ++ ")" ≠ " " := by
        rw [String.append_assoc]
        exact blank_append_ne (by simp)
      have hcast := ((hchildren.1 depth false).append
        ((defines_keyword_text "as" htype).cons (f := text " ") (by simp))).after
          (show Quiet [keyword "cast", text "("] by simp [Quiet])
      rw [fragments]
      simpa [children, statement?] using hcast
  | unary op e =>
    simp only [children, List.forall_mem_cons] at hchildren
    rw [fragments]
    simpa [children, statement?] using
      (defines_operand (hchildren.1 depth false) op.strength false e).after op.quiet_fragments
  | isNull e negated =>
    simp only [children, List.forall_mem_cons] at hchildren
    rw [fragments]
    simpa [children, statement?] using
      (defines_operand (hchildren.1 depth false) strengthComparison false e).before
        (quiet_predicateWord (by simp) (by simp) negated)
  | paren e =>
    simp only [children, List.forall_mem_cons] at hchildren
    rw [fragments]
    simpa [children, statement?] using defines_inParens (hchildren.1 depth false)

/-- The statement of the source, if there is one, defines the names of its definitions. -/
def Source.DefinesNames (t : Source) : Prop := ∀ s ∈ t.statement?, s.DefinesNames

theorem Source.defines_fragments {t : Source} (h : t.DefinesNames) (depth : Nat) :
    Defines (t.fragments depth) t.cteNames := by
  rw [cteNames_eq]
  cases t with
  | table path n a =>
    rw [fragments]
    exact (quiet_dottedName path n).defines.append (defines_alias? a)
  | subquery s a =>
    rw [fragments]
    simpa [statement?] using
      (defines_block (h s rfl (depth + 1)) depth).append (defines_alias? (some a))

theorem defines_fromFragments {source : Option Source}
    (h : ∀ t ∈ source.toList, t.DefinesNames) (depth : Nat) :
    Defines (fromFragments depth source) (source.toList.flatMap Source.cteNames) := by
  cases source with
  | none =>
    rw [fromFragments]
    exact defines_nil
  | some t =>
    rw [fromFragments]
    simpa using
      defines_clauseFragments (Source.defines_fragments (h t (by simp)) depth) depth (by simp)

theorem JoinConstraint.defines_fragments {c : JoinConstraint}
    (h : ∀ e ∈ c.condition?.toList, e.DefinesNames) (depth : Nat) :
    Defines (c.fragments depth) (c.condition?.toList.flatMap Expr.cteNames) := by
  cases c with
  | on e =>
    rw [fragments]
    simpa [condition?] using (h e (by simp [condition?]) depth true).after
      (show Quiet [text " ", keyword "on", text " "] by simp [Quiet])
  | shared columns =>
    have hcolumns : Quiet (text " " :: keyword "using" :: text " (" :: names columns
        ++ [text ")"]) := by
      have hnames := quiet_names columns
      simp only [Quiet, List.cons_append, List.forall_mem_cons, List.forall_mem_append]
      exact ⟨by simp, by simp, by simp, hnames, by simp⟩
    rw [fragments]
    exact hcolumns.defines
  | none =>
    rw [fragments]
    exact defines_nil

theorem defines_joinFragments {js : List Join}
    (hcomma : ∀ j ∈ js, j.kind = .comma → j.constraint.condition? = none)
    (hright : ∀ j ∈ js, j.right.DefinesNames)
    (hconstraint : ∀ j ∈ js, ∀ e ∈ j.constraint.condition?.toList, e.DefinesNames) (depth : Nat) :
    Defines (joinFragments depth js) (js.flatMap fun j =>
      j.right.cteNames ++ j.constraint.condition?.toList.flatMap Expr.cteNames) := by
  induction js with
  | nil =>
    rw [joinFragments]
    exact defines_nil
  | cons j js ih =>
    obtain ⟨kind, right, constraint⟩ := j
    rw [List.forall_mem_cons] at hcomma hright hconstraint
    have hr := Source.defines_fragments hright.1 depth
    have hc := JoinConstraint.defines_fragments hconstraint.1 depth
    have hkeyword : kind.keyword ≠ "as" := by cases kind <;> simp [JoinKind.keyword]
    rw [joinFragments, List.flatMap_cons]
    refine Defines.append ?_ (ih hcomma.2 hright.2 hconstraint.2)
    -- a comma prints no constraint; that it has no condition is what makes this harmless
    by_cases hk : kind = .comma
    · rw [if_pos hk, hcomma.1 hk]
      simpa using hr.cons (f := text ", ") (by simp)
    · rw [if_neg hk]
      exact (defines_clauseFragments hr depth hkeyword).append hc

theorem Select.defines_fragments {q : Select} (hq : q.JoinsPrinted)
    (h : ∀ p ∈ q.parts, p.elim Expr.DefinesNames Source.DefinesNames) (depth : Nat) :
    Defines (q.fragments depth)
      (q.parts.flatMap fun p => p.elim Expr.cteNames Source.cteNames) := by
  obtain ⟨distinct, items, source, joins, filter, groupBy, having, orderBy, limit, offset⟩ := q
  simp only [parts, tailExprs, List.map_append, List.forall_mem_append, List.forall_mem_map,
    List.forall_mem_flatMap, List.forall_mem_cons, Sum.elim_inl, Sum.elim_inr] at h
  obtain ⟨⟨⟨hitems, hsource⟩, hjoins⟩, ⟨⟨⟨⟨hfilter, hgroupBy⟩, hhaving⟩, horderBy⟩, hlimit⟩,
    hoffset⟩ := h
  have hclause : ∀ word : String, word ≠ "as" → Quiet (clauseFragments depth word []) :=
    fun word hword => by simpa [Quiet, clauseFragments] using hword
  have hselect : Quiet (keyword "select"
      :: ((if distinct then [text " ", keyword "distinct"] else []) ++ [text " "])) := by
    cases distinct <;> simp [Quiet]
  have hi := defines_joined (show Quiet [comma depth] by simp [Quiet])
    (defines_itemFragments (List.forall_mem_map.mpr hitems) depth)
  have hs := defines_fromFragments hsource depth
  have hj : Defines (if source.isSome then joinFragments depth joins else [])
      (joins.flatMap fun j =>
        j.right.cteNames ++ j.constraint.condition?.toList.flatMap Expr.cteNames) := by
    split
    · exact defines_joinFragments hq.2 (fun j hj => (hjoins j hj).1)
        (fun j hj => (hjoins j hj).2) depth
    · next hnone =>
      -- without a first source there are no joins, printed or walked
      have : joins = [] := hq.1 (Option.not_isSome_iff_eq_none.mp hnone)
      rw [this]
      exact defines_nil
  have hw := defines_optionFragments hfilter depth true (hclause "where" (by simp)) quiet_nil
  have hg := defines_listClause (defines_exprFragments hgroupBy depth) depth
    (show "group by" ≠ "as" by simp)
  have hh := defines_optionFragments hhaving depth true (hclause "having" (by simp)) quiet_nil
  have ho := defines_listClause (defines_orderFragments (List.forall_mem_map.mpr horderBy) depth)
    depth (show "order by" ≠ "as" by simp)
  have hl := defines_optionFragments hlimit depth false (hclause "limit" (by simp)) quiet_nil
  have hf := defines_optionFragments hoffset depth false (hclause "offset" (by simp)) quiet_nil
  rw [← List.flatMap_def] at hi hg ho
  have hall := ((((((((hi.after hselect).append hs).append hj).append hw).append hg).append
    hh).append ho).append hl).append hf
  rw [fragments]
  simpa [parts, tailExprs, List.flatMap_map, List.flatMap_assoc] using hall

theorem defines_cteFragments {cs : List Cte} (h : ∀ c ∈ cs, c.statement.DefinesNames)
    (depth : Nat) :
    List.Forall₂ Defines (cteFragments depth cs)
      (cs.map fun c => c.name :: c.statement.cteNames) := by
  induction cs with
  | nil =>
    rw [cteFragments]
    exact .nil
  | cons c cs ih =>
    obtain ⟨n, columns, s⟩ := c
    rw [List.forall_mem_cons] at h
    have hstatement := ((h.1 (depth + 1)).cons (f := edge (depth + 1)) (by simp)).before
      (show Quiet [edge depth, text ")"] by simp [Quiet])
    rw [cteFragments]
    refine .cons ?_ (ih h.2)
    -- the parenthesis of the statement is the last fragment of the head
    simpa [block, columnFragments] using (defines_head n columns).append hstatement

theorem Statement.definesNames_of_parts {s : Statement}
    (hctes : ∀ c ∈ s.ctes, c.statement.DefinesNames)
    (hbody : ∀ depth, Defines (s.body.fragments depth) s.body.cteNames) : s.DefinesNames := by
  intro depth
  rw [cteNames_eq]
  obtain ⟨withClause, body⟩ := s
  cases withClause with
  | none =>
    rw [fragments]
    exact hbody depth
  | some w =>
    obtain ⟨recursive, cs⟩ := w
    have hcs := defines_joined (show Quiet [text ",", lineEnd depth] by simp [Quiet])
      (defines_cteFragments hctes depth)
    rw [← List.flatMap_def] at hcs
    have hwith : Quiet (keyword "with"
        :: ((if recursive then [text " ", keyword "recursive"] else []) ++ [text " "])) := by
      cases recursive <;> simp [Quiet]
    rw [fragments]
    have hend : Quiet [lineEnd depth] := by simp [Quiet]
    simpa [ctes] using ((hcs.after hwith).before hend).append (hbody depth)

/-! ## Every tree

The parts of a node are smaller, and the joins of their selects are among those of the node. -/

mutual

/-- An expression defines the names of the definitions below it. -/
theorem Expr.definesNames (e : Expr) (h : ∀ q ∈ e.selects, q.JoinsPrinted) : e.DefinesNames := by
  rw [Expr.selects_eq, List.forall_mem_append, List.forall_mem_flatMap,
    List.forall_mem_flatMap] at h
  refine Expr.definesNames_of_parts (fun c hc => ?_) fun s hs => ?_
  · exact Expr.definesNames c (h.2 c hc)
  · exact Statement.definesNames s (h.1 s (by simpa using hs))
termination_by sizeOf e
decreasing_by
  · exact Expr.sizeOf_lt_of_mem_children hc
  · exact Expr.sizeOf_lt_of_statement? hs

theorem Body.defines_fragments (b : Body) (h : ∀ q ∈ b.selects, q.JoinsPrinted) (depth : Nat) :
    Defines (b.fragments depth) b.cteNames := by
  match b with
  | .select q =>
    rw [Body.selects_select, List.forall_mem_cons, Select.selects_subqueries,
      List.forall_mem_append, List.forall_mem_flatMap, List.forall_mem_flatMap] at h
    obtain ⟨hq, hsources, hexprs⟩ := h
    rw [Body.fragments, Body.cteNames_select]
    refine Select.defines_fragments hq ?_ depth
    rintro (e | t) hp
    · exact Expr.definesNames e (hexprs e (Select.mem_exprs_of_mem_parts hp))
    · intro s hs
      have ht := hsources t (Select.mem_sources_of_mem_parts hp)
      rw [Source.selects, List.forall_mem_flatMap] at ht
      exact Statement.definesNames s (ht s (by simpa using hs))
  | .setOp l op r =>
    rw [Body.selects_setOp, List.forall_mem_append] at h
    have hop : Quiet [lineEnd depth, keyword op.keyword, lineEnd depth] := by
      cases op <;> simp [Quiet, SetOperator.keyword]
    rw [Body.fragments, Body.cteNames_setOp]
    exact ((Body.defines_fragments l h.1 depth).before hop).append
      (Body.defines_fragments r h.2 depth)
  | .nested s =>
    rw [Body.selects_nested] at h
    rw [Body.fragments, Body.cteNames_nested]
    exact defines_block (Statement.definesNames s h (depth + 1)) depth
termination_by sizeOf b
decreasing_by
  · have := Select.sizeOf_lt_of_mem_exprs (Select.mem_exprs_of_mem_parts hp)
    simp +arith only [Body.select.sizeOf_spec]; omega
  · have := Source.sizeOf_lt_of_statement? hs
    have := Select.sizeOf_lt_of_mem_sources (Select.mem_sources_of_mem_parts hp)
    simp +arith only [Body.select.sizeOf_spec]; omega
  all_goals simp +arith

/-- **The fragments of a statement define the names that the walk meets, in its order.** -/
theorem Statement.definesNames (s : Statement) (h : s.JoinsPrinted) : s.DefinesNames := by
  rw [Statement.JoinsPrinted, Statement.selects_eq, List.forall_mem_append,
    List.forall_mem_flatMap] at h
  refine Statement.definesNames_of_parts (fun c hc => ?_) fun depth => ?_
  · exact Statement.definesNames c.statement (h.1 c hc)
  · exact Body.defines_fragments s.body h.2 depth
termination_by sizeOf s
decreasing_by
  · exact Statement.sizeOf_lt_of_mem_ctes hc
  · exact s.sizeOf_body_lt

end

/-! ## Printed statements -/

/-- The pieces of a text belong to the fragments: each fragment has one, and that of a name is the
name as the dialect writes it. -/
def PiecesOf (config : DialectConfig) (fs : List Fragment) (pieces : List String) : Prop :=
  List.Forall₂ (fun f piece => ∀ n, f = name n → piece = config.name n) fs pieces

theorem piecesOf_fill (config : DialectConfig) (fs : List Fragment) (placeholders : List String) :
    PiecesOf config fs (fill config fs placeholders) := by
  induction fs generalizing placeholders with
  | nil => exact .nil
  | cons f fs ih =>
    cases f with
    | param p =>
      cases placeholders with
      | nil => exact .cons nofun (ih [])
      | cons placeholder placeholders => exact .cons nofun (ih placeholders)
    | name n =>
      exact .cons (fun m h => congrArg config.name (Fragment.name.inj h)) (ih placeholders)
    | _ => exact .cons nofun (ih placeholders)

theorem piecesOf_format {s : Statement} {config : DialectConfig} {out : Formatted}
    (h : s.format config = .ok out) :
    ∃ pieces, out.sql = String.join pieces ∧ PiecesOf config (s.fragments 0) pieces := by
  unfold Statement.format formatFragments at h
  rw [Fragment.render_eq] at h
  cases hconfig : config.validate with
  | error e =>
    rw [hconfig] at h
    cases h
  | ok u =>
    rw [hconfig] at h
    cases hplaced : Collected.placeAll config (params (s.fragments 0)) .empty with
    | error e =>
      rw [hplaced] at h
      cases h
    | ok r =>
      rw [hplaced] at h
      obtain rfl := Except.ok.inj h
      exact ⟨_, rfl, piecesOf_fill config (s.fragments 0) r.1⟩

/-- **The collector lists what the text defines.** The definitions of a statement that was read are
printed in the order of the walk, whatever the dialect: the text has a piece for each fragment, and
the names that the fragments define are those that the walk meets. The collector lists the same
definitions, each as often. It lists them in the order of the text if no definition is printed
before a part that is collected first, and, when no definition repeats, only then. -/
theorem Statement.allCtes_printed {sql : String} {s : Statement} (hs : parse sql = .ok s) :
    (∀ config out, s.format config = .ok out →
        ∃ pieces, out.sql = String.join pieces ∧ PiecesOf config (s.fragments 0) pieces)
      ∧ definedNames [] (s.fragments 0) = s.ctesInOrder.map Cte.name
      ∧ s.allCtes.Perm s.ctesInOrder
      ∧ (s.DefinesInOrder → s.allCtes = s.ctesInOrder)
      ∧ (s.allCtes.Nodup → s.allCtes = s.ctesInOrder → s.DefinesInOrder) := by
  have hjoins : s.JoinsPrinted := fun q hq =>
    ((Statement.allSound_of_wf s (wf_of_parse hs)).2.1 q hq).1.joinsPrinted
  have hnames := (s.definesNames hjoins 0 [] settled_nil).1
  have hctes := s.reorders_ctes
  exact ⟨fun config out h => piecesOf_format h, hnames, hctes.perm, hctes.eq_of, hctes.of_eq⟩

/-- Definitions in WITH and in a FROM subquery are collected in order; of two operands of IN, the
second one comes first. -/
theorem allCtes_printed_operands :
    (∃ s, parse ("with a as (with b as (select 1 as x) select x from b) "
          ++ "select * from (with c as (select 2 as y) select y from c) t") = .ok s
        ∧ s.DefinesInOrder ∧ s.allCtes = s.ctesInOrder
        ∧ definedNames [] (s.fragments 0) = ["a", "b", "c"])
      ∧ ∃ s, parse ("select (with a as (select 1 as x) select x from a) in "
          ++ "(with b as (select 2 as y) select y from b)") = .ok s
        ∧ ¬s.DefinesInOrder ∧ s.allCtes.Perm s.ctesInOrder ∧ s.allCtes.map Cte.name = ["b", "a"]
        ∧ definedNames [] (s.fragments 0) = ["a", "b"] := by
  constructor
  · obtain ⟨s, hs, h⟩ := exists_ok_of_any
      (show (parse ("with a as (with b as (select 1 as x) select x from b) "
          ++ "select * from (with c as (select 2 as y) select y from c) t")).toOption.any
        (fun s => decide s.DefinesInOrder
          && definedNames [] (s.fragments 0) == ["a", "b", "c"]) = true by decide +kernel)
    obtain ⟨horder, hnames⟩ := (Bool.and_eq_true _ _).mp h
    obtain ⟨-, -, -, heq, -⟩ := Statement.allCtes_printed hs
    exact ⟨s, hs, of_decide_eq_true horder, heq (of_decide_eq_true horder), beq_iff_eq.mp hnames⟩
  · obtain ⟨s, hs, h⟩ := exists_ok_of_any
      (show (parse ("select (with a as (select 1 as x) select x from a) in "
          ++ "(with b as (select 2 as y) select y from b)")).toOption.any
        (fun s => !decide s.DefinesInOrder && s.allCtes.map Cte.name == ["b", "a"]
          && definedNames [] (s.fragments 0) == ["a", "b"]) = true by decide +kernel)
    simp only [Bool.and_eq_true, Bool.not_eq_true', decide_eq_false_iff_not, beq_iff_eq] at h
    obtain ⟨⟨horder, hcollected⟩, hnames⟩ := h
    obtain ⟨-, -, hperm, -⟩ := Statement.allCtes_printed hs
    exact ⟨s, hs, horder, hperm, hcollected, hnames⟩

end Sql
