import Sql.Proofs.Reading

/-!
# Reading expressions back

The levels of the reader, from the weakest operators down to the expressions without one, and the
loops that take operators of one strength from the left. An expression of some strength is read by
the parser of its own level, and by those of all weaker ones (`Readable.of_own`); whatever follows
must bind less tightly than the level.

* `Reaches`: a loop comes past the lexemes of an expression and goes on with that expression as its
  left operand. This is what an operand on the left of an operator gives.
* `reads_call`, `reads_case` and their neighbours: the expressions without an outer operator, given
  what the parsers of the next level in read.
-/

namespace Sql.Parser

/-! ## Loops -/

/-- Extend an expression from the left as long as there is something to extend it with. -/
def loop (step : Expr → Parser (Option Expr)) : Nat → Expr → Parser Expr
  | 0, e => return e
  | n + 1, e => do
    match ← step e with
    | some e' => loop step n e'
    | none => return e

/-- One operator and its right operand. -/
def chainStep (operator : Lexeme → Option BinaryOp) (operand : Parser Expr) (left : Expr) :
    Parser (Option Expr) := do
  match operator (← peek).lexeme with
  | none => return none
  | some op =>
    skip
    let right ← operand
    return some (.binary left op right)

/-- One short cast. -/
def castStep (e : Expr) : Parser (Option Expr) := do
  if ← eat (.symbol .doubleColon) then return some (.cast e (← typeName) true) else return none

theorem chainTail_eq (operator : Lexeme → Option BinaryOp) (operand : Parser Expr) (n : Nat)
    (left : Expr) :
    chainTail operator operand n left = loop (chainStep operator operand) n left := by
  induction n generalizing left with
  | zero => rfl
  | succ n ih =>
    rw [chainTail, loop, chainStep]
    simp only [bind_assoc]
    congr 1
    funext t
    cases operator t.lexeme with
    | none => simp
    | some op => simp [ih]

theorem castsTail_eq (n : Nat) (e : Expr) : castsTail n e = loop castStep n e := by
  induction n generalizing e with
  | zero => rfl
  | succ n ih =>
    rw [castsTail, loop, castStep]
    simp only [bind_assoc]
    congr 1
    funext b
    cases b <;> simp [ih]

theorem comparisonTail_eq (inner : Inner) (n : Nat) (e : Expr) :
    comparisonTail inner n e = loop (predicate? inner) n e := by
  induction n generalizing e with
  | zero => rfl
  | succ n ih =>
    rw [comparisonTail, loop]
    congr 1
    funext r
    cases r <;> simp [ih]

/-! ## Levels -/

/-- The parser for expressions of at least that strength. -/
def level (inner : Inner) : Nat → Parser Expr
  | 0 => orExpr inner
  | 1 => orExpr inner
  | 2 => andExpr inner
  | 3 => notExpr inner
  | 4 => comparisonExpr inner
  | 5 => concatExpr inner
  | 6 => sumExpr inner
  | 7 => productExpr inner
  | 8 => signExpr inner
  | 9 => castExpr inner
  | _ => primary inner

/-- What the loop of a level repeats. -/
def levelStep (inner : Inner) : Nat → Expr → Parser (Option Expr)
  | 1 => chainStep orOp? (andExpr inner)
  | 2 => chainStep andOp? (notExpr inner)
  | 4 => predicate? inner
  | 5 => chainStep concatOp? (sumExpr inner)
  | 6 => chainStep sumOp? (productExpr inner)
  | 7 => chainStep productOp? (signExpr inner)
  | 9 => castStep
  | _ => fun _ => return none

/-- The levels with operators that group to the left. -/
def groupsLeft (s : Nat) : Bool := [1, 2, 4, 5, 6, 7, 9].contains s

theorem level_eq (inner : Inner) {s : Nat} (hs : groupsLeft s = true) :
    level inner s = (do
      let e ← level inner (s + 1)
      loop (levelStep inner s) (← remaining) e) := by
  have hcases : ∀ s ∈ [1, 2, 4, 5, 6, 7, 9], level inner s = (do
      let e ← level inner (s + 1)
      loop (levelStep inner s) (← remaining) e) := by
    simp only [List.forall_mem_cons, List.not_mem_nil, false_imp_iff, implies_true, and_true]
    simp only [level, levelStep, orExpr, andExpr, comparisonExpr, concatExpr, sumExpr, productExpr,
      castExpr, chain, chainTail_eq, comparisonTail_eq, castsTail_eq, and_self]
  exact hcases s (by simpa [groupsLeft] using hs)

/-! ## Coming past a left operand -/

section

variable {fits : Prop} {inner : Inner} {config : DialectConfig} {ls ms : List Lexeme} {e e' : Expr}
  {follow : Lexeme → Prop} {s : Nat}

/-- The loop of a level comes past the lexemes and goes on with the expression: whatever it then
reads behind it, it reads behind the lexemes. -/
def Reaches (fits : Prop) (inner : Inner) (s : Nat) (ls : List Lexeme) (e : Expr) : Prop :=
  ∀ (ms : List Lexeme) (e' : Expr) (follow : Lexeme → Prop),
    (∀ n, ms.length ≤ n → Reads fits (loop (levelStep inner s) n e) ms e' follow) →
    (∀ l, follow l → (ms.headD l).tight ≤ s) → Reads fits (level inner s) (ls ++ ms) e' follow

/-- An expression that the next level reads is a left operand. -/
theorem Reaches.of_next (hs : groupsLeft s = true)
    (h : Reads fits (level inner (s + 1)) ls e fun l => l.tight < s + 1) :
    Reaches fits inner s ls e := by
  intro ms e' follow hloop hfollow
  rw [level_eq inner hs]
  exact Reads.bind h (Reads.remaining hloop) fun l hl => Nat.lt_succ_of_le (hfollow l hl)

/-- A left operand with an operator behind it, and what belongs to the operator, is one again. -/
theorem Reaches.step (h : Reaches fits inner s ls e)
    (hstep : Reads fits (levelStep inner s e) ms (some e') fun l => l.tight ≤ s)
    (hhead : ∃ l tail, ms = l :: tail ∧ l.tight ≤ s) : Reaches fits inner s (ls ++ ms) e' := by
  intro ks e'' follow hloop hfollow
  obtain ⟨l, tail, rfl, hl⟩ := hhead
  rw [List.append_assoc]
  refine h _ _ _ (fun n hn => ?_) fun _ _ => hl
  simp only [List.cons_append, List.length_cons, List.length_append] at hn
  cases n with
  | zero => omega
  | succ n => exact Reads.bind hstep (hloop n (by omega)) hfollow

theorem andOp?_eq_none {l : Lexeme} (h : l.tight < 2) : andOp? l = none := by
  rw [andOp?, not_keyword_of_tight (k := "and") h]
  rfl

theorem orOp?_eq_none {l : Lexeme} (h : l.tight < 1) : orOp? l = none := by
  rw [orOp?, not_keyword_of_tight (k := "or") h]
  rfl

/-- The operators that are symbols are of the strength that their symbol has. -/
theorem symbolOp?_eq_none {l : Lexeme} :
    (l.tight < 4 → comparisonOp? l = none) ∧ (l.tight < 5 → concatOp? l = none)
      ∧ (l.tight < 6 → sumOp? l = none) ∧ (l.tight < 7 → productOp? l = none) := by
  cases l with
  | symbol s => cases s <;> decide
  | _ => exact ⟨fun _ => rfl, fun _ => rfl, fun _ => rfl, fun _ => rfl⟩

theorem reads_chainStep_none {operator : Lexeme → Option BinaryOp} {operand : Parser Expr}
    (h : ∀ l, follow l → operator l = none) :
    Reads fits (chainStep operator operand e) [] none follow := by
  refine Reads.peek fun t ht => ?_
  obtain ⟨l, hl, ht⟩ := ht
  rw [ht, List.headD_nil, h l hl]
  exact Reads.pure

theorem reads_not_predicateNot :
    Reads fits eatPredicateNot [] false fun l => l.isKeyword "not" = false := by
  refine Reads.look (reads_isNextKeyword false) (fun _ h => h) (Reads.peekSecond_any fun t => ?_)
  exact Reads.pure

theorem reads_predicate_none :
    Reads fits (predicate? inner e) [] none fun l => l.tight < strengthComparison := by
  have hword : ∀ k, (Lexeme.word k).tight = strengthComparison → ∀ l : Lexeme,
      l.tight < strengthComparison → l.isKeyword k = false := fun k hk l hl =>
    not_keyword_of_tight (hk ▸ hl)
  refine Reads.peek fun t ht => ?_
  obtain ⟨l, hl, ht⟩ := ht
  rw [ht, List.headD_nil, symbolOp?_eq_none.1 hl]
  refine Reads.look reads_not_eatKeyword (hword "is" (by decide)) ?_
  refine Reads.look reads_not_predicateNot (hword "not" (by decide)) ?_
  refine Reads.look reads_not_eatKeyword (hword "like" (by decide)) ?_
  refine Reads.look reads_not_eatKeyword (hword "ilike" (by decide)) ?_
  refine Reads.look reads_not_eatKeyword (hword "between" (by decide)) ?_
  refine Reads.look reads_not_eatKeyword (hword "in" (by decide)) ?_
  exact Reads.pure

/-- A loop ends where nothing of its level follows. -/
theorem reads_levelStep_none (hs : groupsLeft s = true) :
    Reads fits (levelStep inner s e) [] none fun l => l.tight < s := by
  have hcases : ∀ s ∈ [1, 2, 4, 5, 6, 7, 9],
      Reads fits (levelStep inner s e) [] none fun l => l.tight < s := by
    simp only [List.forall_mem_cons, List.not_mem_nil, false_imp_iff, implies_true, and_true]
    refine ⟨?_, ?_, ?_, ?_, ?_, ?_, ?_⟩
    · exact reads_chainStep_none fun l hl => orOp?_eq_none hl
    · exact reads_chainStep_none fun l hl => andOp?_eq_none hl
    · exact reads_predicate_none
    · exact reads_chainStep_none fun l hl => symbolOp?_eq_none.2.1 hl
    · exact reads_chainStep_none fun l hl => symbolOp?_eq_none.2.2.1 hl
    · exact reads_chainStep_none fun l hl => symbolOp?_eq_none.2.2.2 hl
    · exact Reads.look reads_not_eat (fun l hl => ne_symbol_of_tight hl) Reads.pure
  exact hcases s (by simpa [groupsLeft] using hs)

/-- A left operand with nothing of its level behind it is the whole expression. -/
theorem Reaches.reads (hs : groupsLeft s = true) (h : Reaches fits inner s ls e) :
    Reads fits (level inner s) ls e fun l => l.tight < s := by
  have hloop : ∀ n, Reads fits (loop (levelStep inner s) n e) [] e fun l => l.tight < s := by
    intro n
    cases n with
    | zero => exact Reads.pure
    | succ n => exact Reads.look (reads_levelStep_none hs) (fun _ h => h) Reads.pure
  have := h [] e _ (fun n _ => hloop n) fun l hl => Nat.le_of_lt hl
  rwa [List.append_nil] at this

/-! ## From the own level to the weaker ones -/

/-- The parsers of all levels that an expression of that strength may stand on read it. -/
structure Readable (fits : Prop) (inner : Inner) (strength : Nat) (ls : List Lexeme) (e : Expr) :
    Prop where
  reads : ∀ s, s ≤ strength → Reads fits (level inner s) ls e fun l => l.tight < s
  reaches : ∀ s, groupsLeft s = true → s ≤ strength → Reaches fits inner s ls e

/-- A level passes on what it has no operator for. -/
theorem reads_level_of_next {strength : Nat} (hstarts : Starts strength ls) (hs : s < strength)
    (h : Reads fits (level inner (s + 1)) ls e fun l => l.tight < s + 1) :
    Reads fits (level inner s) ls e fun l => l.tight < s := by
  obtain ⟨l, tail, rfl, -, hnot, hsign⟩ := hstarts
  have hloop : groupsLeft s = true → Reads fits (level inner s) (l :: tail) e fun l => l.tight < s :=
    fun hgroups => (Reaches.of_next hgroups h).reads hgroups
  by_cases h10 : 10 ≤ s
  · obtain ⟨k, rfl⟩ := Nat.exists_eq_add_of_le' h10
    exact Reads.weaken h fun _ hl => Nat.lt_succ_of_lt hl
  have hcases : s = 0 ∨ s = 3 ∨ s = 8 ∨ groupsLeft s = true := by
    have : ∀ s < 10, s = 0 ∨ s = 3 ∨ s = 8 ∨ groupsLeft s = true := by decide
    exact this s (by omega)
  rcases hcases with rfl | rfl | rfl | hgroups
  · exact fun _ _ _ hrest => absurd hrest (Nat.not_lt_zero _)
  · refine Reads.look reads_not_eatKeyword (fun _ _ => hnot hs) ?_
    exact Reads.weaken h fun _ hl => Nat.lt_succ_of_lt hl
  · refine Reads.peek fun t ht => ?_
    obtain ⟨_, _, ht⟩ := ht
    rw [ht, List.headD_cons, hsign hs]
    exact Reads.weaken h fun _ hl => Nat.lt_succ_of_lt hl
  · exact hloop hgroups

/-- **An expression that the parser of its own level reads is read by those of all weaker
levels.** -/
theorem Readable.of_own {strength : Nat} (hstarts : Starts strength ls)
    (hreads : Reads fits (level inner strength) ls e fun l => l.tight < strength)
    (hreaches : groupsLeft strength = true → Reaches fits inner strength ls e) :
    Readable fits inner strength ls e := by
  have hall : ∀ s, s ≤ strength → Reads fits (level inner s) ls e fun l => l.tight < s :=
    fun s hs => Nat.decreasingInduction
      (motive := fun s _ => Reads fits (level inner s) ls e fun l => l.tight < s)
      (fun s hs h => reads_level_of_next hstarts hs h) hreads hs
  refine ⟨hall, fun s hgroups hs => ?_⟩
  rcases Nat.lt_or_eq_of_le hs with hlt | rfl
  · exact Reaches.of_next hgroups (hall (s + 1) hlt)
  · exact hreaches hgroups

/-! ## Operators and predicates -/

theorem reads_chainStep {operator : Lexeme → Option BinaryOp} {operand : Parser Expr} {l : Lexeme}
    {op : BinaryOp} {r : Expr} (hop : operator l = some op) (hr : Reads fits operand ls r follow) :
    Reads fits (chainStep operator operand e) (l :: ls) (some (.binary e op r)) follow := by
  refine Reads.peek fun t ht => ?_
  obtain ⟨_, _, ht⟩ := ht
  rw [ht, List.headD_cons, hop]
  exact Reads.token reads_skip (Reads.finish hr rfl)

/-- NOT in front of the word of a predicate. -/
theorem reads_predicateNot (config : DialectConfig) (negated : Bool) :
    Reads fits eatPredicateNot (if negated then [kw config "not"] else []) negated
      fun l => l.isKeyword "not" = false ∧ negatable.any l.isKeyword = true := by
  cases negated with
  | false => exact Reads.weaken reads_not_predicateNot fun _ h => h.1
  | true =>
    refine Reads.look (reads_isNextKeyword true)
      (fun _ _ => by rw [if_pos rfl, List.headD_cons, isKeyword_kw]; decide) ?_
    refine Reads.peekSecond fun t ht => ?_
    obtain ⟨l, hl, ht⟩ := ht
    rw [ht, List.headD_nil]
    rw [hl.2]
    exact Reads.token reads_skip Reads.pure

/-- The predicates that NOT may stand before, after NOT or where it would stand. -/
def wordPredicate (inner : Inner) (e : Expr) (negated : Bool) : Parser (Option Expr) := do
  if ← eatKeyword "like" then
    return some (.binary e (if negated then .notLike else .like) (← concatExpr inner))
  else if ← eatKeyword "ilike" then
    return some (.binary e (if negated then .notIlike else .ilike) (← concatExpr inner))
  else if ← eatKeyword "between" then
    let low ← concatExpr inner
    expectKeyword "and"
    let high ← concatExpr inner
    return some (.between e low high negated)
  else if ← eatKeyword "in" then
    return some (← inTail inner e negated)
  else return none

/-- A predicate with its word, after NOT or not, is no comparison and no IS NULL. -/
theorem reads_predicate {l : Lexeme} (negated : Bool)
    (hkeyword : l.isKeyword "is" = false ∧ l.isKeyword "not" = false
      ∧ negatable.any l.isKeyword = true)
    (h : Reads fits (wordPredicate inner e negated) (l :: ls) (some e') follow) :
    Reads fits (predicate? inner e) ((if negated then [kw config "not"] else []) ++ l :: ls)
      (some e') follow := by
  have hcomparison : ∀ l : Lexeme, l.isKeyword "not" = true ∨ negatable.any l.isKeyword = true →
      comparisonOp? l = none := fun l hl => by
    cases l with
    | word w => rfl
    | _ => rcases hl with hl | hl <;> simp [Lexeme.isKeyword, negatable] at hl
  have hnot : (kw config "not").isKeyword "not" = true := by
    rw [isKeyword_kw]
    decide
  have his : (kw config "not").isKeyword "is" = false := by
    rw [isKeyword_kw]
    decide
  refine Reads.peek fun t ht => ?_
  obtain ⟨_, _, ht⟩ := ht
  have hnone : comparisonOp? t.lexeme = none := by
    rw [ht]
    cases negated with
    | true => exact hcomparison _ (Or.inl hnot)
    | false => exact hcomparison _ (Or.inr hkeyword.2.2)
  rw [hnone]
  refine Reads.look reads_not_eatKeyword (fun _ _ => ?_)
    (Reads.bind (reads_predicateNot config negated) h fun _ _ => ⟨hkeyword.2.1, hkeyword.2.2⟩)
  cases negated with
  | true => exact his
  | false => exact hkeyword.1

/-- A keyword is itself in any case. -/
theorem isKeyword_kw_self (config : DialectConfig) (k : String) : (kw config k).isKeyword k = true := by
  rw [isKeyword_kw]
  exact sameName_refl k

/-- A keyword is no other one. -/
theorem not_isKeyword_kw (config : DialectConfig) {w k : String} (h : sameName w k = false) :
    (kw config w).isKeyword k = false := by
  rw [isKeyword_kw]
  exact h

theorem reads_like {r : Expr} (negated : Bool)
    (hr : Reads fits (concatExpr inner) ls r follow) :
    Reads fits (predicate? inner e)
      ((if negated then [kw config "not"] else []) ++ kw config "like" :: ls)
      (some (.binary e (if negated then .notLike else .like) r)) follow := by
  refine reads_predicate negated ?_ ?_
  · simp only [negatable, List.any_cons, isKeyword_kw]
    decide
  · exact Reads.token (reads_eatKeyword (isKeyword_kw_self config _)) (Reads.finish hr rfl)

theorem reads_ilike {r : Expr} (negated : Bool)
    (hr : Reads fits (concatExpr inner) ls r follow) :
    Reads fits (predicate? inner e)
      ((if negated then [kw config "not"] else []) ++ kw config "ilike" :: ls)
      (some (.binary e (if negated then .notIlike else .ilike) r)) follow := by
  refine reads_predicate negated ?_ ?_
  · simp only [negatable, List.any_cons, isKeyword_kw]
    decide
  · refine Reads.look reads_not_eatKeyword (fun _ _ => not_isKeyword_kw config (by decide)) ?_
    exact Reads.token (reads_eatKeyword (isKeyword_kw_self config _)) (Reads.finish hr rfl)

theorem reads_between {low high : Expr} {ks : List Lexeme} (negated : Bool)
    (hlow : Reads fits (concatExpr inner) ls low fun l => l.tight < 5)
    (hhigh : Reads fits (concatExpr inner) ks high follow) :
    Reads fits (predicate? inner e)
      (predicateLexemes config "between" "not between" negated
        ++ (ls ++ kw config "and" :: ks)) (some (.between e low high negated)) follow := by
  have hwords : predicateLexemes config "between" "not between" negated ++ (ls ++ kw config "and" :: ks)
      = (if negated then [kw config "not"] else [])
        ++ kw config "between" :: (ls ++ kw config "and" :: ks) := by
    cases negated <;> rfl
  rw [hwords]
  refine reads_predicate negated ?_ ?_
  · simp only [negatable, List.any_cons, isKeyword_kw]
    decide
  · refine Reads.look reads_not_eatKeyword (fun _ _ => not_isKeyword_kw config (by decide)) ?_
    refine Reads.look reads_not_eatKeyword (fun _ _ => not_isKeyword_kw config (by decide)) ?_
    refine Reads.token (reads_eatKeyword (isKeyword_kw_self config _)) ?_
    refine Reads.bind hlow (Reads.token (reads_expectKeyword (isKeyword_kw_self config _))
      (Reads.finish hhigh rfl)) fun _ _ => ?_
    rw [List.headD_cons, tight_kw]
    decide

theorem reads_in (negated : Bool) (h : Reads fits (inTail inner e negated) ls e' follow) :
    Reads fits (predicate? inner e)
      (predicateLexemes config "in" "not in" negated ++ ls) (some e') follow := by
  have hwords : predicateLexemes config "in" "not in" negated ++ ls
      = (if negated then [kw config "not"] else []) ++ kw config "in" :: ls := by
    cases negated <;> rfl
  rw [hwords]
  refine reads_predicate negated ?_ ?_
  · simp only [negatable, List.any_cons, isKeyword_kw]
    decide
  · refine Reads.look reads_not_eatKeyword (fun _ _ => not_isKeyword_kw config (by decide)) ?_
    refine Reads.look reads_not_eatKeyword (fun _ _ => not_isKeyword_kw config (by decide)) ?_
    refine Reads.look reads_not_eatKeyword (fun _ _ => not_isKeyword_kw config (by decide)) ?_
    exact Reads.token (reads_eatKeyword (isKeyword_kw_self config _)) (Reads.finish h rfl)

theorem reads_isNull (negated : Bool) :
    Reads fits (predicate? inner e) (predicateLexemes config "is null" "is not null" negated)
      (some (.isNull e negated)) follow := by
  have hbody : Reads fits (do
        let negated ← eatKeyword "not"
        expectKeyword "null"
        return some (.isNull e negated) : Parser (Option Expr))
      ((if negated then [kw config "not"] else []) ++ [kw config "null"])
      (some (.isNull e negated)) follow := by
    cases negated with
    | true =>
      exact Reads.token (reads_eatKeyword (isKeyword_kw_self config _))
        (Reads.token (reads_expectKeyword (isKeyword_kw_self config _)) Reads.pure)
    | false =>
      exact Reads.look reads_not_eatKeyword (fun _ _ => not_isKeyword_kw config (by decide))
        (Reads.token (reads_expectKeyword (isKeyword_kw_self config _)) Reads.pure)
  have hwords : predicateLexemes config "is null" "is not null" negated
      = kw config "is" :: ((if negated then [kw config "not"] else []) ++ [kw config "null"]) := by
    cases negated <;> rfl
  rw [hwords]
  refine Reads.peek fun t ht => ?_
  obtain ⟨_, _, ht⟩ := ht
  rw [ht, List.headD_cons]
  exact Reads.token (reads_eatKeyword (isKeyword_kw_self config _)) hbody

/-- A comparison by a symbol. -/
theorem reads_comparison {s : Symbol} {op : BinaryOp} {r : Expr}
    (hop : comparisonOp? (.symbol s) = some op) (hr : Reads fits (concatExpr inner) ls r follow) :
    Reads fits (predicate? inner e) (.symbol s :: ls) (some (.binary e op r)) follow := by
  refine Reads.peek fun t ht => ?_
  obtain ⟨_, _, ht⟩ := ht
  rw [ht, List.headD_cons, hop]
  exact Reads.token reads_skip (Reads.finish hr rfl)

/-- **An operator and its right operand extend the left operand.** -/
theorem reads_levelStep_binary {r : Expr} (op : BinaryOp)
    (hr : Reads fits (level inner (op.strength + 1)) ls r follow) :
    Reads fits (levelStep inner op.strength e) (op.lexemes config ++ ls) (some (.binary e op r))
      follow := by
  cases op with
  | or =>
    exact reads_chainStep (by rw [orOp?, isKeyword_kw_self]; rfl) hr
  | and => exact reads_chainStep (by rw [andOp?, isKeyword_kw_self]; rfl) hr
  | eq => exact reads_comparison rfl hr
  | notEq => exact reads_comparison rfl hr
  | lt => exact reads_comparison rfl hr
  | ltEq => exact reads_comparison rfl hr
  | gt => exact reads_comparison rfl hr
  | gtEq => exact reads_comparison rfl hr
  | like => exact reads_like false hr
  | notLike => exact reads_like true hr
  | ilike => exact reads_ilike false hr
  | notIlike => exact reads_ilike true hr
  | concat => exact reads_chainStep rfl hr
  | jsonGet => exact reads_chainStep rfl hr
  | jsonGetText => exact reads_chainStep rfl hr
  | add => exact reads_chainStep rfl hr
  | sub => exact reads_chainStep rfl hr
  | mul => exact reads_chainStep rfl hr
  | div => exact reads_chainStep rfl hr
  | mod => exact reads_chainStep rfl hr

theorem operator_head (config : DialectConfig) (op : BinaryOp) :
    ∃ l tail, op.lexemes config = l :: tail ∧ l.tight = op.strength := by
  cases op with
  | and | or | like | notLike | ilike | notIlike =>
    refine ⟨_, _, rfl, ?_⟩
    rw [tight_kw]
    decide
  | _ => exact ⟨_, _, rfl, rfl⟩

end

end Sql.Parser
