import Sql.Parser

/-!
# Reading with a level counter

The parsers of `Inner` are what the bound on nesting is kept with: `Inner.within n` are those for
the next `n` levels. The same bound can be kept with a counter, which goes up where a level opens,
goes down where it closes again, and may not go above `maxNesting`. Here are both readings of one
`Script`, a parser that is written down step by step.

* `Script.run`: with given parsers for what stands one level further in.
* `Counts`: with a counter. These runs have no bound on their number of steps, so a script that
  comes back to itself without opening a level has none.
* `counts_iff`: every script has exactly one run at every depth, it leaves the counter where it was,
  and it leads to what the parsers for the levels that are left lead to.
-/

namespace Sql.Parser

/-! ## What opens a level -/

/-- What is read one level further in. The parser enters a level and leaves it in these four places
only, each time in the same way. -/
inductive Frame
  /-- Entered in front of an expression (`orExpr`), left behind it. -/
  | expr
  /-- Entered in front of a statement (`Parser.statement`), left behind its body. -/
  | statement
  /-- Entered behind NOT, left behind its operand (`notExpr`). -/
  | negated
  /-- Entered behind a sign, left behind its operand (`signExpr`). -/
  | signed

/-- What a level hands back. -/
def Frame.Result : Frame → Type
  | .statement => Statement
  | _ => Expr

/-- The parser for what stands one level further in. -/
def Inner.read (inner : Inner) : (k : Frame) → Parser k.Result
  | .expr => inner.expr
  | .statement => inner.statement
  | .negated => inner.negated
  | .signed => inner.signed

/-- What is read within a level, once it is open. -/
def Frame.body (inner : Inner) : (k : Frame) → Parser k.Result
  | .expr => orExpr inner
  | .statement => Parser.statement inner
  | .negated => notExpr inner
  | .signed => signExpr inner

theorem read_within_zero (k : Frame) : (Inner.within 0).read k = failHere .tooDeep := by
  cases k <;> rfl

theorem read_within_succ (n : Nat) (k : Frame) :
    (Inner.within (n + 1)).read k = k.body (Inner.within n) := by
  cases k <;> rfl

/-! ## Scripts -/

/-- A parser step by step: what it takes at its own level, where it opens a level, and how it goes
on from what it has read. -/
inductive Script : Type → Type 1
  | tokens {α : Type} (p : Parser α) : Script α
  | frame (k : Frame) : Script k.Result
  | andThen {α β : Type} (x : Script α) (f : α → Script β) : Script β

/-- The parser that a script is, with the given parsers for the levels that it opens. -/
def Script.run (inner : Inner) {α : Type} : Script α → Parser α
  | .tokens p => p
  | .frame k => inner.read k
  | .andThen x f => do (f (← x.run inner)).run inner

/-! ## Runs -/

variable {scripts : (k : Frame) → Script k.Result} {α : Type} {x : Script α} {depth : Nat}
  {ts : List Token} {r : Except ParseFailure (α × Nat × List Token)}

/-- The script leads from a counter and tokens to a counter and the tokens that are left, or to a
fault. For a frame of any kind, `refused` is entering where the counter would pass `maxNesting`;
`closed` is entering, which counts one more, reading by the script of that kind, and leaving, which
counts one less; `stopped` is a fault in between, behind which no counter is left. -/
inductive Counts (scripts : (k : Frame) → Script k.Result) : {α : Type} → Script α → Nat →
    List Token → Except ParseFailure (α × Nat × List Token) → Prop
  | tokens {α : Type} (p : Parser α) (depth : Nat) (ts : List Token) :
    Counts scripts (.tokens p) depth ts ((p ts).map fun (a, rest) => (a, depth, rest))
  | refused {k : Frame} {depth : Nat} (ts : List Token) (h : maxNesting < depth + 1) :
    Counts scripts (.frame k) depth ts (.error ⟨(firstToken ts).offset, .tooDeep⟩)
  | closed {k : Frame} {depth depth' : Nat} {ts rest : List Token} {a : k.Result}
    (h : depth + 1 ≤ maxNesting)
    (hbody : Counts scripts (scripts k) (depth + 1) ts (.ok (a, depth', rest))) :
    Counts scripts (.frame k) depth ts (.ok (a, depth' - 1, rest))
  | stopped {k : Frame} {depth : Nat} {ts : List Token} {e : ParseFailure}
    (h : depth + 1 ≤ maxNesting)
    (hbody : Counts scripts (scripts k) (depth + 1) ts (.error e)) :
    Counts scripts (.frame k) depth ts (.error e)
  | andThen {α β : Type} {x : Script α} {f : α → Script β} {depth depth' : Nat}
    {ts rest : List Token} {a : α} {r : Except ParseFailure (β × Nat × List Token)}
    (hx : Counts scripts x depth ts (.ok (a, depth', rest)))
    (hf : Counts scripts (f a) depth' rest r) : Counts scripts (.andThen x f) depth ts r
  | cut {α β : Type} {x : Script α} {f : α → Script β} {depth : Nat} {ts : List Token}
    {e : ParseFailure} (hx : Counts scripts x depth ts (.error e)) :
    Counts scripts (.andThen x f) depth ts (.error e)

/-- What a script hands back where so many levels are open, with the counter as it was. -/
def Script.outcome (x : Script α) (depth : Nat) (ts : List Token) :
    Except ParseFailure (α × Nat × List Token) :=
  (x.run (Inner.within (maxNesting - depth)) ts).map fun (a, rest) => (a, depth, rest)

theorem run_andThen {β : Type} (inner : Inner) (f : α → Script β) (ts : List Token) :
    (x.andThen f).run inner ts = (x.run inner ts).bind fun (a, rest) => (f a).run inner rest :=
  rfl

theorem outcome_eq_ok {depth' : Nat} {a : α} {rest : List Token} :
    x.outcome depth ts = .ok (a, depth', rest) ↔
      x.run (Inner.within (maxNesting - depth)) ts = .ok (a, rest) ∧ depth' = depth := by
  rw [Script.outcome]
  cases x.run (Inner.within (maxNesting - depth)) ts with
  | error e => simp [Except.map]
  | ok out => simp [Except.map, Prod.ext_iff]; grind

theorem outcome_eq_error {e : ParseFailure} :
    x.outcome depth ts = .error e ↔ x.run (Inner.within (maxNesting - depth)) ts = .error e := by
  rw [Script.outcome]
  cases x.run (Inner.within (maxNesting - depth)) ts <;> simp [Except.map]

/-- One level further in, what is left to read with is one level less. -/
theorem read_within_of_le {k : Frame} (h : depth + 1 ≤ maxNesting) :
    (Inner.within (maxNesting - depth)).read k =
      k.body (Inner.within (maxNesting - (depth + 1))) := by
  rw [show maxNesting - depth = maxNesting - (depth + 1) + 1 by omega, read_within_succ]

/-- Nothing is read where no level is left. -/
theorem counts_refused {k : Frame} (h : maxNesting - depth = 0) :
    Counts scripts (.frame k) depth ts ((Script.frame k).outcome depth ts) := by
  have hrun : (Script.frame k).outcome depth ts = .error ⟨(firstToken ts).offset, .tooDeep⟩ := by
    rw [outcome_eq_error, h, Script.run, read_within_zero]
    rfl
  rw [hrun]
  exact .refused ts (by omega)

/-- A script has a run if the levels that it opens have one. -/
theorem counts_of_frames
    (h : ∀ k ts, Counts scripts (.frame k) depth ts ((Script.frame k).outcome depth ts))
    (x : Script α) (ts : List Token) : Counts scripts x depth ts (x.outcome depth ts) := by
  induction x generalizing ts with
  | tokens p => exact .tokens p depth ts
  | frame k => exact h k ts
  | andThen x f ihx ihf =>
    cases hout : x.run (Inner.within (maxNesting - depth)) ts with
    | error e =>
      have hrun : (x.andThen f).outcome depth ts = .error e := by
        rw [outcome_eq_error, run_andThen, hout]
        rfl
      rw [hrun]
      exact .cut (outcome_eq_error.mpr hout ▸ ihx ts)
    | ok out =>
      obtain ⟨a, rest⟩ := out
      have hrun : (x.andThen f).outcome depth ts = (f a).outcome depth rest := by
        rw [Script.outcome, Script.outcome, run_andThen, hout]
        rfl
      rw [hrun]
      exact .andThen (outcome_eq_ok.mpr ⟨hout, rfl⟩ ▸ ihx ts) (ihf a rest)

section

variable (hscripts : ∀ (k : Frame) (inner : Inner), (scripts k).run inner = k.body inner)

include hscripts

/-- What a counted run leads to: the counter is where it was. -/
theorem Counts.eq_outcome (h : Counts scripts x depth ts r) (hdepth : depth ≤ maxNesting) :
    r = x.outcome depth ts := by
  induction h with
  | tokens p depth ts => rfl
  | @refused k depth ts h =>
    symm
    rw [outcome_eq_error, show maxNesting - depth = 0 by omega, Script.run, read_within_zero]
    rfl
  | closed h hbody ih =>
    -- the counter that the body hands back is the one it was given, so one less is `depth` again
    obtain ⟨hrun, rfl⟩ := outcome_eq_ok.mp (ih h).symm
    rw [hscripts] at hrun
    symm
    rw [outcome_eq_ok, Script.run, read_within_of_le h]
    exact ⟨hrun, rfl⟩
  | stopped h hbody ih =>
    have hrun := outcome_eq_error.mp (ih h).symm
    rw [hscripts] at hrun
    symm
    rwa [outcome_eq_error, Script.run, read_within_of_le h]
  | andThen hx hf ihx ihf =>
    obtain ⟨hrun, rfl⟩ := outcome_eq_ok.mp (ihx hdepth).symm
    rw [ihf hdepth, Script.outcome, Script.outcome, run_andThen, hrun]
    rfl
  | cut hx ih =>
    have hrun := outcome_eq_error.mp (ih hdepth).symm
    symm
    rw [outcome_eq_error, run_andThen, hrun]
    rfl

/-- A level that may be opened is run by the script of its kind. -/
theorem counts_frame_of_body {k : Frame} (h : depth + 1 ≤ maxNesting)
    (hbody : Counts scripts (scripts k) (depth + 1) ts ((scripts k).outcome (depth + 1) ts)) :
    Counts scripts (.frame k) depth ts ((Script.frame k).outcome depth ts) := by
  have hrun : (Script.frame k).run (Inner.within (maxNesting - depth)) ts =
      (scripts k).run (Inner.within (maxNesting - (depth + 1))) ts := by
    rw [hscripts, Script.run, read_within_of_le h]
  cases hout : (scripts k).run (Inner.within (maxNesting - (depth + 1))) ts with
  | error e =>
    rw [outcome_eq_error.mpr (hrun.trans hout)]
    rw [outcome_eq_error.mpr hout] at hbody
    exact .stopped h hbody
  | ok out =>
    obtain ⟨a, rest⟩ := out
    rw [outcome_eq_ok.mpr ⟨hrun.trans hout, rfl⟩]
    rw [outcome_eq_ok.mpr ⟨hout, rfl⟩] at hbody
    exact .closed h hbody

/-- Every script has a run. A script has an end, and with every level that opens one less is
left. -/
theorem counts_outcome (x : Script α) (ts : List Token) (hdepth : depth ≤ maxNesting) :
    Counts scripts x depth ts (x.outcome depth ts) := by
  -- the script of a level is none of the parts of `x`, so the levels that are left count down
  obtain ⟨left, hleft⟩ : ∃ left, left = maxNesting - depth := ⟨_, rfl⟩
  induction left generalizing α x depth ts with
  | zero => exact counts_of_frames (fun k ts => counts_refused (by omega)) x ts
  | succ left ih =>
    exact counts_of_frames
      (fun k ts => counts_frame_of_body hscripts (by omega) (ih _ ts (by omega) (by omega))) x ts

/-- **A counter keeps the same bound.** With a counter every script has exactly one run at every
depth; it comes back to the depth that it started at, and hands back what the parsers for the levels
that are left hand back. -/
theorem counts_iff (hdepth : depth ≤ maxNesting) :
    Counts scripts x depth ts r ↔ r = x.outcome depth ts :=
  ⟨fun h => h.eq_outcome hscripts hdepth, fun h => h ▸ counts_outcome hscripts x ts hdepth⟩

end

end Sql.Parser
