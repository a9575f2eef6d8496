import Sql.Proofs.BoundParams
import Sql.Proofs.ReadBack
import Sql.Proofs.SoundFilter

/-!
# Sequences of edits

`Edited` holds of the statements that edits lead to, in any order and number, from given statements.
Each edit keeps statements sound (`Edited.allSound`), which is worth two things:

* `Edited.wellFormed`: the shape that every statement has when it is read is never lost.
* `Edited.parse_printed`: what is printed after any edits is read back, values and parentheses apart.
-/

namespace Sql

/-- The statements that a sequence of edits leads to. It starts from statements of one kind; the
conditions given as text and the schemas that are asked are of a kind as well. -/
inductive Edited (start : Statement → Prop) (raw : Expr → Prop) (schema : Option Lookup → Prop) :
    Statement → Prop
  | start {s : Statement} : start s → Edited start raw schema s
  | filter {s t : Statement} {text : String} : Edited start raw schema s →
      (∀ e, parseExpression text = .ok e → raw e) → s.addFilterText text = .ok t →
        Edited start raw schema t
  | criteria {s t : Statement} {lookup : Option Lookup} {criteria : Criteria} {pushDown : Bool} :
      Edited start raw schema s → schema lookup → s.filterBy criteria pushDown lookup = .ok t →
        Edited start raw schema t
  | join {s t : Statement} {lookup : Option Lookup} {r : JoinRequest} :
      Edited start raw schema s → schema lookup → s.addJoin r lookup = .ok t →
        Edited start raw schema t
  | sort {s t : Statement} {lookup : Option Lookup} {specs : List SortSpec} :
      Edited start raw schema s → schema lookup → s.addSort specs lookup = .ok t →
        Edited start raw schema t
  | page {s t : Statement} {p : PageSpec} :
      Edited start raw schema s → s.addPage p = .ok t → Edited start raw schema t
  | bindParam {s : Statement} {name : String} {v : Value} {r : Statement × Nat} :
      Edited start raw schema s → s.bindParam name v = .ok r → Edited start raw schema r.1
  | bindParams {s t : Statement} {values : List (String × Value)} :
      Edited start raw schema s → s.bindParams values = .ok t → Edited start raw schema t
  | combine {statements : List Statement} {t : Statement} {op : SetOperator} :
      (∀ s ∈ statements, Edited start raw schema s) → combine statements op = .ok t →
        Edited start raw schema t

/-- **Edits lead from sound statements to sound statements.** -/
theorem Edited.allSound {spelled : Prop} {start : Statement → Prop} {raw : Expr → Prop}
    {schema : Option Lookup → Prop} (hstart : ∀ s, start s → s.AllSound spelled)
    (hraw : ∀ text e, parseExpression text = .ok e → raw e → e.AllSound spelled)
    (hschema : ∀ lookup, schema lookup → spelled → Lookup.Named lookup) {s : Statement}
    (h : Edited start raw schema s) : s.AllSound spelled := by
  induction h with
  | start h => exact hstart _ h
  | filter _ htext h ih =>
    exact Statement.addFilterText_sound ih (fun e he => hraw _ e he (htext e he)) h
  | criteria _ hlookup h ih => exact Statement.filterBy_sound (hschema _ hlookup) ih h
  | join _ hlookup h ih => exact Statement.addJoin_sound ih (hschema _ hlookup) h
  | sort _ hlookup h ih => exact Statement.addSort_sound ih (hschema _ hlookup) h
  | page _ h ih => exact Statement.addPage_sound ih h
  | bindParam _ h ih => exact Statement.bindParam_sound ih h
  | bindParams _ h ih => exact Statement.bindParams_sound ih h
  | combine _ h ih => exact combine_sound ih h

/-- A text of one select, filtered by a text and by a list of values, joined, sorted, restricted to a
page and combined with itself. -/
def severalEdits : Except Error Statement := do
  let s ← parse "select id, n from t"
  let s ← s.addFilterText "n > 1 or n < 0"
  let s ← s.filterBy ⟨[("id", .oneOf [.nat 1, .nat 2])]⟩ true none
  let s ← s.addJoin ⟨"u", "", ["id"], .left⟩ none
  let s ← s.addSort [⟨"n", .desc, none⟩] none
  let s ← s.addPage ⟨2, 10⟩
  combine [s, s] .union

theorem edited_of_severalEdits {start : Statement → Prop} {raw : Expr → Prop}
    {schema : Option Lookup → Prop} (hstart : ∀ s, parse "select id, n from t" = .ok s → start s)
    (hraw : ∀ e, parseExpression "n > 1 or n < 0" = .ok e → raw e) (hschema : schema none)
    {s : Statement} (h : severalEdits = .ok s) : Edited start raw schema s := by
  obtain ⟨_, hparse, h⟩ := ok_of_bind h
  obtain ⟨_, hfilter, h⟩ := ok_of_bind h
  obtain ⟨_, hcriteria, h⟩ := ok_of_bind h
  obtain ⟨_, hjoin, h⟩ := ok_of_bind h
  obtain ⟨_, hsort, h⟩ := ok_of_bind h
  obtain ⟨_, hpage, h⟩ := ok_of_bind h
  refine .combine (fun t ht => ?_) h
  have hpaged := @Edited.start start raw schema _ (hstart _ hparse)
    |>.filter hraw hfilter |>.criteria hschema hcriteria |>.join hschema hjoin
    |>.sort hschema hsort |>.page hpage
  simp only [List.mem_cons, List.not_mem_nil, or_false, or_self] at ht
  exact ht ▸ hpaged

/-! ## Shape -/

/-- The shape that the grammar gives every expression, select and statement of a tree. -/
structure Statement.WellFormedThroughout (s : Statement) : Prop where
  exprs : ∀ e ∈ s.nodesInOrder, e.Filled
  selects : ∀ q ∈ s.selects, q.WellFormed
  statements : ∀ t ∈ s.statements, t.WellFormed

theorem Statement.allSound_false_iff {s : Statement} :
    s.AllSound False ↔ s.WellFormedThroughout := by
  constructor
  · rintro ⟨hexprs, hselects, hstatements⟩
    exact ⟨fun e he => (hexprs e he).1, fun q hq => (hselects q hq).1,
      fun t ht => (hstatements t ht).1⟩
  · rintro ⟨hexprs, hselects, hstatements⟩
    exact ⟨fun e he => ⟨hexprs e he, False.elim⟩, fun q hq => ⟨hselects q hq, False.elim⟩,
      fun t ht => ⟨hstatements t ht, False.elim⟩⟩

/-- **A text is read as a well-formed statement, and no edit makes one that is not.** -/
theorem Edited.wellFormed {s : Statement}
    (h : Edited (fun s => (∃ text, parse text = .ok s) ∨ s.WellFormedThroughout) (fun _ => True)
      (fun _ => True) s) : s.WellFormedThroughout := by
  refine Statement.allSound_false_iff.mp (h.allSound ?_ ?_ fun _ _ => False.elim)
  · rintro s (⟨text, hparse⟩ | hs)
    · exact Statement.allSound_of_wf s (wf_of_parse hparse)
    · exact Statement.allSound_false_iff.mpr hs
  · exact fun text e he _ => Expr.allSound_of_wf e (wf_of_parseExpression he)

theorem wellFormed_severalEdits :
    ∃ s, severalEdits = .ok s
      ∧ Edited (fun s => (∃ text, parse text = .ok s) ∨ s.WellFormedThroughout) (fun _ => True)
        (fun _ => True) s
      ∧ s.WellFormedThroughout := by
  obtain ⟨s, hs, -⟩ := exists_ok_of_any
    (show severalEdits.toOption.any (fun _ => true) = true by decide +kernel)
  have hedited := @edited_of_severalEdits
    (fun s => (∃ text, parse text = .ok s) ∨ s.WellFormedThroughout) (fun _ => True)
    (fun _ => True) (fun s h => .inl ⟨_, h⟩) (fun _ _ => trivial) trivial s hs
  exact ⟨s, hs, hedited, Edited.wellFormed hedited⟩

/-! ## Text -/

/-- **What is printed after any edits is read back,** values and parentheses apart, unless it nests
too deeply. -/
theorem Edited.parse_printed {s : Statement}
    (h : Edited (fun s => (∃ text, parse text = .ok s) ∧ ∀ e ∈ s.nodesInOrder, e.Named)
      (fun e => ∀ x ∈ e.nodesInOrder, x.Named) Lookup.Named s)
    {d : Dialect} (hd : d ∈ readableDialects) {out : Formatted}
    (hformat : s.format d.config = .ok out) :
    (∃ offset, parse out.sql
        = .error (Error.inText out.sql offset "statement nested too deeply"))
      ∨ ∃ s', parse out.sql = .ok s' ∧ s'.bare = (s.mapParams Param.unbound).bare := by
  have hsound : s.AllSound True := by
    refine h.allSound ?_ ?_ fun _ hlookup _ => hlookup
    · rintro s ⟨⟨text, hparse⟩, hnamed⟩
      exact Statement.allSound_of_wf s (Statement.wf_of_named s (wf_of_parse hparse) hnamed)
    · intro text e he hnamed
      exact Expr.allSound_of_wf e (Expr.wf_of_named e (wf_of_parseExpression he) hnamed)
  have hvalid : d.config.validate = .ok () := by cases d <;> rfl
  exact Statement.parse_of_format hsound
    (DialectConfig.readable_of_writesLike hd ⟨rfl, rfl, rfl⟩ hvalid) hformat

theorem parse_printed_severalEdits :
    ∃ s, severalEdits = .ok s
      ∧ Edited (fun s => (∃ text, parse text = .ok s) ∧ ∀ e ∈ s.nodesInOrder, e.Named)
        (fun e => ∀ x ∈ e.nodesInOrder, x.Named) Lookup.Named s
      ∧ Dialect.postgres ∈ readableDialects
      ∧ ∃ out, s.format Dialect.postgres.config = .ok out
        ∧ ((∃ offset, parse out.sql
              = .error (Error.inText out.sql offset "statement nested too deeply"))
            ∨ ∃ s', parse out.sql = .ok s' ∧ s'.bare = (s.mapParams Param.unbound).bare) := by
  obtain ⟨s, hs, hprinted⟩ := exists_ok_of_any
    (show severalEdits.toOption.any
      (fun s => (s.format Dialect.postgres.config).toOption.any fun _ => true) = true by
        decide +kernel)
  obtain ⟨out, hout, -⟩ := exists_ok_of_any hprinted
  obtain ⟨s₀, hparse, hnamed⟩ := exists_ok_of_any
    (show (parse "select id, n from t").toOption.any
      (fun s => decide (∀ e ∈ s.nodesInOrder, e.Named)) = true by decide +kernel)
  obtain ⟨e₀, hexpr, hnamed'⟩ := exists_ok_of_any
    (show (parseExpression "n > 1 or n < 0").toOption.any
      (fun e => decide (∀ x ∈ e.nodesInOrder, x.Named)) = true by decide +kernel)
  have hedited := @edited_of_severalEdits
    (fun s => (∃ text, parse text = .ok s) ∧ ∀ e ∈ s.nodesInOrder, e.Named)
    (fun e => ∀ x ∈ e.nodesInOrder, x.Named) Lookup.Named
    (fun s h => ⟨⟨_, h⟩, by
      obtain rfl := Except.ok.inj (hparse.symm.trans h)
      exact of_decide_eq_true hnamed⟩)
    (fun e h => by
      obtain rfl := Except.ok.inj (hexpr.symm.trans h)
      exact of_decide_eq_true hnamed')
    (fun ask hask => by simp at hask) s hs
  have hd : Dialect.postgres ∈ readableDialects := by decide
  exact ⟨s, hs, hedited, hd, out, hout, Edited.parse_printed hedited hd hout⟩

end Sql
