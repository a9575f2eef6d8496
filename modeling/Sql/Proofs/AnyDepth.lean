import Sql.Proofs.ReadBack

/-!
# Trees of any depth

The reader refuses what nests too deeply. A tree that was read and is changed afterwards may come to
nest too deeply, and nothing else about it need be wrong.

* `Statement.wf_anyDepth`, `Expr.wf_anyDepth`: a tree that was read is well formed, whatever the
  number of levels that it is given.
* `Statement.readsAsItself`: a statement that is well formed in this sense is printed, and its text
  is read as the same statement, parentheses included, unless there are not levels enough for it.
-/

namespace Sql

/-- The statement is printed, and its text is read as the statement itself. The only other outcome
is that there are not levels enough for it, and this is what reading it reports. -/
def Statement.ReadsAsItself (s : Statement) (config : DialectConfig) : Prop :=
  ∃ out, s.format config = .ok out
    ∧ (parse out.sql = .ok s
      ∨ ¬ s.Wf True True (Parser.maxNesting - 1) ∧ ∃ offset,
        parse out.sql = .error (Error.inText out.sql offset "statement nested too deeply"))

theorem readable_generic : Dialect.generic.config.Readable := ⟨.inl rfl, .inl rfl, rfl, rfl⟩

/-! ## Trees that were read

A tree that was read is what its own text is read as. But its text is also read as its rereading,
which is well formed at any depth, so the two are the same tree.
-/

theorem Expr.wf_anyDepth {e : Expr} (h : e.Wf True True (Parser.maxNesting - 1)) (n : Nat) :
    e.Wf True False n := by
  obtain ⟨out, hout, hlex⟩ := (Expr.spells readable_generic 0 false e h).format readable_generic
  have hread : parseExpression out.sql = .ok e :=
    (parseExpression_of_lex h hlex).resolve_right fun hdeep => hdeep.1 trivial
  have hsound : e.AllSound True := Expr.allSound_of_wf e h
  -- the same text is read as the rereading, and nothing nests too deeply in it
  rcases (Expr.parse_reread_of_format hsound readable_generic hout).2 with ⟨_, hdeep⟩ | hreread
  · rw [hread] at hdeep
    simp at hdeep
  · obtain heq : e.reread = e := Except.ok.inj (hreread.symm.trans hread)
    rw [← heq]
    exact Expr.readsBack e hsound (Expr.named_of_format hsound hout) n

theorem Statement.wf_anyDepth {s : Statement} (h : s.Wf True True (Parser.maxNesting - 1))
    (n : Nat) : s.Wf True False n := by
  obtain ⟨out, hout, hlex⟩ := (Statement.spells readable_generic 0 s h).format readable_generic
  have hread : parse out.sql = .ok s :=
    (parse_of_lex h hlex).resolve_right fun hdeep => hdeep.1 trivial
  have hsound : s.AllSound True := Statement.allSound_of_wf s h
  -- the same text is read as the rereading, and nothing nests too deeply in it
  rcases Statement.parse_reread_of_format hsound readable_generic hout with ⟨_, hdeep⟩ | hreread
  · rw [hread] at hdeep
    simp at hdeep
  · obtain heq : s.reread = s := Except.ok.inj (hreread.symm.trans hread)
    rw [← heq]
    exact Statement.readsBack s hsound (Statement.named_of_format hsound hout) n

/-- An expression that was read, without what no text can give back. -/
theorem Expr.wf_of_read {text : String} {e : Expr} (h : parseExpression text = .ok e)
    (hnamed : ∀ x ∈ e.nodesInOrder, x.Named) : ∀ n, e.Wf True False n :=
  Expr.wf_anyDepth (Expr.wf_of_named e (wf_of_parseExpression h) hnamed)

/-- A statement that was read, without what no text can give back. -/
theorem Statement.wf_of_read {text : String} {s : Statement} (h : parse text = .ok s)
    (hnamed : ∀ x ∈ s.nodesInOrder, x.Named) : ∀ n, s.Wf True False n :=
  Statement.wf_anyDepth (Statement.wf_of_named s (wf_of_parse h) hnamed)

/-! ## The round trip -/

/-- **A statement that is well formed at any depth is printed, and read as itself.** -/
theorem Statement.readsAsItself {s : Statement} (h : ∀ n, s.Wf True False n) {d : Dialect}
    (hd : d ∈ readableDialects) : s.ReadsAsItself d.config := by
  have hvalid : d.config.validate = .ok () := by cases d <;> rfl
  have hconfig := DialectConfig.readable_of_writesLike hd ⟨rfl, rfl, rfl⟩ hvalid
  have hwf := h (Parser.maxNesting - 1)
  obtain ⟨out, hout, hlex⟩ := (Statement.spells hconfig 0 s hwf).format hconfig
  refine ⟨out, hout, ?_⟩
  -- without the bound the reader may still stop, but only for want of levels
  by_cases hfits : s.Wf True True (Parser.maxNesting - 1)
  · exact .inl ((parse_of_lex hfits hlex).resolve_right fun hdeep => hdeep.1 trivial)
  · exact (parse_of_lex hwf hlex).imp_right fun hdeep => ⟨hfits, hdeep.2⟩

end Sql
