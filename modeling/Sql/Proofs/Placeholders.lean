import Sql.Proofs.PrintedParams
import Sql.Proofs.Values

/-!
# Placeholders and their values

Printing hands out one placeholder for each parameter of a statement. Which text that is, which
values go with it and when printing is refused depends only on the list of the parameters
(`Fragment.render_eq`). That list is the one that the walk in printed order meets, so the values are
those that `Statement.params` and `Statement.paramUses` collect.

* `Collected.placeAll_positional`: one value for each parameter, in order.
* `Collected.placeAll_named`: one value for each name, the first that is bound, unless two differ.
* `Statement.format_params`: printing fails exactly on an anonymous parameter or on two values for
  one name, and else hands out the collected values.
-/

namespace Sql

/-! ## Text and placeholders apart -/

namespace Fragment

/-- The pieces of text of fragments, given the placeholders of their parameters in order. -/
def fill (config : DialectConfig) : List Fragment → List String → List String
  | [], _ => []
  | param _ :: fs, s :: placeholders => s :: fill config fs placeholders
  | f :: fs, placeholders =>
    let rest := fill config fs placeholders
    f.plainText config rest :: rest

end Fragment

namespace Collected

/-- The placeholders of parameters, and the values with theirs added. -/
def placeAll (config : DialectConfig) :
    List Param → Collected → Except FormatFault (List String × Collected)
  | [], c => .ok ([], c)
  | p :: ps, c => do
    let (s, c) ← c.place config p
    let (rest, c) ← placeAll config ps c
    return (s :: rest, c)

end Collected

/-- **Rendering is placing the parameters and filling in the text.** -/
theorem Fragment.render_eq (config : DialectConfig) (fs : List Fragment) (c : Collected) :
    Fragment.render config fs c =
      (Collected.placeAll config (Fragment.params fs) c).map fun r =>
        (Fragment.fill config fs r.1, r.2) := by
  induction fs generalizing c with
  | nil => rfl
  | cons f fs ih =>
    cases f with
    | param p =>
      rw [render, params_param, Collected.placeAll]
      cases hp : c.place config p with
      | error e => rfl
      | ok r =>
        obtain ⟨s, c'⟩ := r
        simp only [bind, Except.bind, ih]
        cases Collected.placeAll config (params fs) c' <;> rfl
    | _ =>
      rw [render, ih]
      · simp only [params_text, params_keyword, params_name, params_function, params_sign,
          params_lineEnd, params_edge, params_comma, params_conjunction]
        cases Collected.placeAll config (params fs) c <;> rfl
      · simp

/-- The placeholder of a parameter that has `k` parameters before it. -/
def DialectConfig.placeholder (config : DialectConfig) (p : Param) (k : Nat) : String :=
  match config.parameterStyle with
  | .named => config.parameterSymbol ++ p.name.getD ""
  | .indexed => config.parameterSymbol ++ toString (k + 1)
  | .anonymous => config.parameterSymbol

/-- The placeholders of parameters, the first of them with `k` parameters before it. -/
def DialectConfig.placeholders (config : DialectConfig) (ps : List Param) (k : Nat) : List String :=
  (ps.zipIdx k).map fun r => config.placeholder r.1 r.2

namespace Collected

/-- An anonymous parameter has no placeholder. -/
theorem placeAll_anonymous (config : DialectConfig) {ps : List Param} {p : Param} (hp : p ∈ ps)
    (hname : p.name = none) (c : Collected) : ∃ e, placeAll config ps c = .error e := by
  induction ps generalizing c with
  | nil => simp at hp
  | cons q ps ih =>
    unfold placeAll
    cases hq : c.place config q with
    | error e => exact ⟨e, rfl⟩
    | ok r =>
      obtain ⟨s, c'⟩ := r
      rcases List.mem_cons.mp hp with rfl | hp
      · unfold place at hq
        rw [hname] at hq
        simp at hq
      · obtain ⟨e, he⟩ := ih hp c'
        exact ⟨e, by simp [bind, Except.bind, he]⟩

/-! ## Values by position -/

/-- **Every parameter adds its value, in order.** -/
theorem placeAll_positional {config : DialectConfig} (hstyle : config.parameterStyle ≠ .named)
    {ps : List Param} (hnames : ∀ p ∈ ps, p.name ≠ none) (c : Collected) :
    placeAll config ps c = .ok (config.placeholders ps c.positional.length,
      ⟨c.named, c.positional ++ ps.map fun p => p.value.getD .null⟩) := by
  induction ps generalizing c with
  | nil => simp [placeAll, DialectConfig.placeholders]
  | cons p ps ih =>
    rw [List.forall_mem_cons] at hnames
    obtain ⟨n, hn⟩ := Option.ne_none_iff_exists'.mp hnames.1
    have hplace : c.place config p = .ok (config.placeholder p c.positional.length,
        ⟨c.named, c.positional ++ [p.value.getD .null]⟩) := by
      unfold place DialectConfig.placeholder
      rw [hn]
      cases hs : config.parameterStyle with
      | named => exact absurd hs hstyle
      | indexed => simp
      | anonymous => rfl
    rw [placeAll, hplace]
    simp only [bind, Except.bind, ih hnames.2]
    simp [DialectConfig.placeholders, pure, Except.pure]

/-! ## Values by name

The values that printing collects by name are the uses that the collector keeps, without their
counts. What decides whether a mention is refused is the value that its name has already, which is
also the first one that the whole list binds it to (`known_cons`). -/

end Collected

/-- The name and the value of a use. -/
def ParamUse.pair (u : ParamUse) : String × Option Value := (u.name, u.value)

/-- The value that uses have for a name. -/
def valueOf (name : String) : List ParamUse → Option Value
  | [] => none
  | u :: uses => if u.name = name then u.value else valueOf name uses

/-- The first value that parameters bind a name to. -/
def firstBound (name : String) (ps : List Param) : Option Value :=
  ps.findSome? fun p => if p.name = some name then p.value else none

/-- The value that a name has after uses and parameters. -/
def known (name : String) (uses : List ParamUse) (ps : List Param) : Option Value :=
  (valueOf name uses).or (firstBound name ps)

theorem valueOf_addUse (name n : String) (value : Option Value) (uses : List ParamUse) :
    valueOf n (addUse name value uses)
      = if name = n then (valueOf n uses).or value else valueOf n uses := by
  induction uses with
  | nil => simp [addUse, valueOf]
  | cons u uses ih =>
    unfold addUse
    by_cases hu : u.name = name
    · rw [if_pos hu]
      by_cases hn : name = n <;> simp [valueOf, hu, hn]
    · rw [if_neg hu]
      by_cases hn : name = n
      · subst hn
        rw [valueOf, if_neg hu, ih, valueOf, if_neg hu]
      · by_cases hun : u.name = n <;> simp [valueOf, hun, ih, hn]

/-- Noting a parameter does not change what its name, or another one, is bound to in the end. -/
theorem known_cons {p : Param} {name : String} (hp : p.name = some name) (n : String)
    (uses : List ParamUse) (ps : List Param) :
    known n (addUse name p.value uses) ps = known n uses (p :: ps) := by
  unfold known firstBound
  rw [valueOf_addUse, List.findSome?_cons, hp]
  by_cases hn : name = n
  · cases hv : p.value <;> simp [hn]
  · simp [hn]

/-- A mention with another value than its name has is refused; every other one is noted as the
collector notes it. -/
theorem Collected.mention_eq (name : String) (value : Option Value) (uses : List ParamUse) :
    Collected.mention name value (uses.map ParamUse.pair) =
      match valueOf name uses, value with
      | some a, some b =>
        if a.same b then .ok ((addUse name value uses).map ParamUse.pair)
        else .error (.conflictingValues name a b)
      | _, _ => .ok ((addUse name value uses).map ParamUse.pair) := by
  induction uses with
  | nil => rfl
  | cons u uses ih =>
    rw [List.map_cons]
    unfold ParamUse.pair mention valueOf addUse
    by_cases hu : u.name = name
    · rw [if_pos hu, if_pos hu, if_pos hu]
      cases u.value <;> cases value <;> simp
    · rw [if_neg hu, if_neg hu, if_neg hu]
      -- the mention goes on in the rest, and puts this use back in front
      change (mention name value (uses.map ParamUse.pair) >>= _) = _
      rw [ih]
      cases valueOf name uses with
      | none => rfl
      | some a =>
        cases value with
        | none => rfl
        | some b =>
          simp only
          split <;> rfl

namespace Collected

/-- A mention agrees with the value that its name has already. -/
def Fits (uses : List ParamUse) (name : String) (value : Option Value) : Prop :=
  ∀ a b, valueOf name uses = some a → value = some b → a.same b = true

theorem mention_of_fits {uses : List ParamUse} {name : String} {value : Option Value}
    (h : Fits uses name value) :
    mention name value (uses.map ParamUse.pair) = .ok ((addUse name value uses).map ParamUse.pair) := by
  rw [mention_eq]
  split
  · next a b ha =>
    rw [if_pos (h a b ha rfl)]
  · rfl

theorem mention_of_not_fits {uses : List ParamUse} {name : String} {value : Option Value}
    (h : ¬ Fits uses name value) :
    ∃ e, mention name value (uses.map ParamUse.pair) = .error e := by
  rw [mention_eq]
  split
  · next a b ha =>
    split
    · next hsame =>
      refine absurd ?_ h
      rintro a' b' ha' hb'
      obtain rfl : a = a' := Option.some.inj (ha.symm.trans ha')
      obtain rfl : b = b' := Option.some.inj hb'
      exact hsame
    · exact ⟨_, rfl⟩
  · next hnone =>
    refine absurd ?_ h
    intro a b ha hb
    exact absurd hb (hnone a b ha)

/-- The values of parameters agree with what their names are bound to in the end. -/
def Agree (uses : List ParamUse) (ps : List Param) : Prop :=
  ∀ p ∈ ps, ∀ n a b, p.name = some n → p.value = some b → known n uses ps = some a →
    a.same b = true

/-- **One value for each name, the first that is bound.** Printing is refused exactly when a later
mention binds the name to another value. -/
theorem placeAll_named {config : DialectConfig} (hstyle : config.parameterStyle = .named)
    {ps : List Param} (hnames : ∀ p ∈ ps, p.name ≠ none)
    (hvalues : ∀ p ∈ ps, ∀ v, p.value = some v → v.WellKeyed) (uses : List ParamUse)
    (positional : List Value) (k : Nat) :
    (Agree uses ps → placeAll config ps ⟨uses.map ParamUse.pair, positional⟩ =
        .ok (config.placeholders ps k,
          ⟨(ps.foldl addParam uses).map ParamUse.pair, positional⟩))
      ∧ (¬ Agree uses ps →
        ∃ e, placeAll config ps ⟨uses.map ParamUse.pair, positional⟩ = .error e) := by
  induction ps generalizing uses k with
  | nil =>
    refine ⟨fun _ => rfl, fun h => absurd ?_ h⟩
    intro p hp
    simp at hp
  | cons p ps ih =>
    rw [List.forall_mem_cons] at hnames hvalues
    obtain ⟨name, hname⟩ := Option.ne_none_iff_exists'.mp hnames.1
    have hih := ih hnames.2 hvalues.2 (addUse name p.value uses) (k + 1)
    have hfold : addParam uses p = addUse name p.value uses := by
      unfold addParam
      rw [hname]
    have hplace : place config p ⟨uses.map ParamUse.pair, positional⟩ =
        (mention name p.value (uses.map ParamUse.pair)).map fun named =>
          (config.placeholder p k, ⟨named, positional⟩) := by
      unfold place DialectConfig.placeholder
      rw [hname, hstyle]
      dsimp only
      cases mention name p.value (uses.map ParamUse.pair) <;> rfl
    -- the rest agrees with the same values, since `known` has not changed
    have hagree : Agree uses (p :: ps) ↔
        Fits uses name p.value ∧ Agree (addUse name p.value uses) ps := by
      unfold Agree Fits
      simp only [known_cons hname]
      rw [List.forall_mem_cons]
      refine and_congr_left fun _ => ⟨fun h a b ha hb => ?_, fun h n a b hn hb ha => ?_⟩
      · exact h name a b hname hb (by unfold known; rw [ha]; rfl)
      · obtain rfl : name = n := Option.some.inj (hname.symm.trans hn)
        unfold known at ha
        cases hu : valueOf name uses with
        | some c =>
          rw [hu] at ha
          obtain rfl : c = a := Option.some.inj ha
          exact h c b hu hb
        | none =>
          -- the first value of the name is this one
          rw [hu, Option.none_or, firstBound, List.findSome?_cons, if_pos hname, hb] at ha
          obtain rfl : b = a := Option.some.inj ha
          exact Value.same_refl b (hvalues.1 b hb)
    rw [hagree, placeAll, hplace, List.foldl_cons, hfold]
    by_cases hfits : Fits uses name p.value
    · rw [mention_of_fits hfits]
      refine ⟨fun h => ?_, fun h => ?_⟩
      · simp only [Except.map, bind, Except.bind, hih.1 h.2]
        rfl
      · obtain ⟨e, he⟩ := hih.2 fun hrest => h ⟨hfits, hrest⟩
        exact ⟨e, by simp only [Except.map, bind, Except.bind, he]⟩
    · obtain ⟨e, he⟩ := mention_of_not_fits hfits
      refine ⟨fun h => absurd h.1 hfits, fun _ => ⟨e, ?_⟩⟩
      simp only [he, Except.map, bind, Except.bind]

end Collected

/-- Two mentions bind one name to different values. -/
def Param.Clash (p q : Param) : Prop :=
  ∃ n a b, p.name = some n ∧ q.name = some n ∧ p.value = some a ∧ q.value = some b
    ∧ a.same b = false

theorem exists_mem_of_firstBound {n : String} {a : Value} {ps : List Param}
    (h : firstBound n ps = some a) : ∃ p ∈ ps, p.name = some n ∧ p.value = some a := by
  obtain ⟨p, hp, h⟩ := List.exists_of_findSome?_eq_some h
  by_cases hn : p.name = some n
  · rw [if_pos hn] at h
    exact ⟨p, hp, hn, h⟩
  · rw [if_neg hn] at h
    simp at h

theorem firstBound_ne_none {n : String} {b : Value} {q : Param} {ps : List Param} (hq : q ∈ ps)
    (hn : q.name = some n) (hb : q.value = some b) : ∃ a, firstBound n ps = some a := by
  cases h : firstBound n ps with
  | some a => exact ⟨a, rfl⟩
  | none =>
    have := List.findSome?_eq_none_iff.mp h q hq
    rw [if_pos hn, hb] at this
    simp at this

/-- Every mention agrees with the first value of its name exactly when no two mentions clash. -/
theorem Collected.agree_iff {ps : List Param}
    (hvalues : ∀ p ∈ ps, ∀ v, p.value = some v → v.WellKeyed) :
    Collected.Agree [] ps ↔ ¬ ∃ p ∈ ps, ∃ q ∈ ps, p.Clash q := by
  have hknown : ∀ n, known n [] ps = firstBound n ps := fun n => by rw [known, valueOf, Option.none_or]
  constructor
  · rintro h ⟨p, hp, q, hq, n, a, b, hpn, hqn, ha, hb, hab⟩
    obtain ⟨f, hf⟩ := firstBound_ne_none hp hpn ha
    obtain ⟨r, hr, -, hrf⟩ := exists_mem_of_firstBound hf
    have hfa := h p hp n f a hpn ha ((hknown n).trans hf)
    have hfb := h q hq n f b hqn hb ((hknown n).trans hf)
    have haf := Value.same_symm f (hvalues r hr f hrf) a (hvalues p hp a ha) hfa
    have := Value.same_trans a f b haf hfb
    rw [hab] at this
    simp at this
  · intro h q hq n a b hqn hb ha
    rw [hknown] at ha
    obtain ⟨p, hp, hpn, hpa⟩ := exists_mem_of_firstBound ha
    by_contra hab
    exact h ⟨p, hp, q, hq, n, a, b, hpn, hqn, hpa, hb, Bool.eq_false_iff.mpr hab⟩

/-! ## The uses that the collector keeps -/

theorem addUse_names {name : String} {value : Option Value} {uses : List ParamUse} {u : ParamUse}
    (h : u ∈ addUse name value uses) : u.name = name ∨ ∃ v ∈ uses, v.name = u.name := by
  induction uses with
  | nil =>
    obtain rfl := List.mem_singleton.mp h
    exact Or.inl rfl
  | cons v uses ih =>
    unfold addUse at h
    split at h
    · rcases List.mem_cons.mp h with rfl | h
      · exact Or.inr ⟨v, List.mem_cons_self, rfl⟩
      · exact Or.inr ⟨u, List.mem_cons_of_mem _ h, rfl⟩
    · rcases List.mem_cons.mp h with rfl | h
      · exact Or.inr ⟨u, List.mem_cons_self, rfl⟩
      · rcases ih h with h | ⟨w, hw, hname⟩
        · exact Or.inl h
        · exact Or.inr ⟨w, List.mem_cons_of_mem _ hw, hname⟩

theorem addUse_names_nodup {name : String} {value : Option Value} {uses : List ParamUse}
    (h : (uses.map ParamUse.name).Nodup) : ((addUse name value uses).map ParamUse.name).Nodup := by
  induction uses with
  | nil => simp [addUse]
  | cons u uses ih =>
    rw [List.map_cons, List.nodup_cons] at h
    unfold addUse
    split
    · exact List.nodup_cons.mpr h
    · next hne =>
      refine List.nodup_cons.mpr ⟨fun hmem => ?_, ih h.2⟩
      obtain ⟨v, hv, hvu⟩ := List.mem_map.mp hmem
      rcases addUse_names hv with hname | ⟨w, hw, hwv⟩
      · exact hne (hvu.symm.trans hname)
      · exact h.1 (List.mem_map.mpr ⟨w, hw, hwv.trans hvu⟩)

/-- Every name is kept once. -/
theorem foldl_addParam_names_nodup {ps : List Param} {uses : List ParamUse}
    (h : (uses.map ParamUse.name).Nodup) :
    ((ps.foldl addParam uses).map ParamUse.name).Nodup := by
  induction ps generalizing uses with
  | nil => exact h
  | cons p ps ih =>
    refine ih ?_
    unfold addParam
    cases p.name with
    | none => exact h
    | some name => exact addUse_names_nodup h

theorem valueOf_of_mem {u : ParamUse} {uses : List ParamUse}
    (hnames : (uses.map ParamUse.name).Nodup) (hu : u ∈ uses) : valueOf u.name uses = u.value := by
  induction uses with
  | nil => simp at hu
  | cons v uses ih =>
    rw [List.map_cons, List.nodup_cons] at hnames
    unfold valueOf
    rcases List.mem_cons.mp hu with rfl | hu
    · rw [if_pos rfl]
    · have hne : v.name ≠ u.name := by
        intro heq
        exact hnames.1 (List.mem_map.mpr ⟨u, hu, heq.symm⟩)
      rw [if_neg hne, ih hnames.2 hu]

theorem valueOf_foldl_addParam (n : String) (ps : List Param) (uses : List ParamUse) :
    valueOf n (ps.foldl addParam uses) = known n uses ps := by
  induction ps generalizing uses with
  | nil => rw [List.foldl_nil, known, firstBound, List.findSome?_nil, Option.or_none]
  | cons p ps ih =>
    rw [List.foldl_cons, ih]
    unfold addParam
    cases hname : p.name with
    | none =>
      unfold known firstBound
      rw [List.findSome?_cons, hname]
      rfl
    | some name => exact known_cons hname n uses ps

/-- **A name is collected with the first value that the statement binds it to.** -/
theorem Statement.value_of_mem_paramUses {s : Statement} {u : ParamUse} (hu : u ∈ s.paramUses) :
    u.value = firstBound u.name s.params := by
  have hnames : (s.paramUses.map ParamUse.name).Nodup := foldl_addParam_names_nodup List.nodup_nil
  rw [← valueOf_of_mem hnames hu, Statement.paramUses, valueOf_foldl_addParam, known, valueOf,
    Option.none_or]

/-! ## Printed statements -/

/-- The values that go with the text of a statement: by name those that the collector keeps, by
position one for each mention; null when there is none. -/
def Statement.collectedParams (s : Statement) (style : ParameterStyle) : Params :=
  match style with
  | .named => .named (s.paramUses.map fun u => (u.name, u.value.getD .null))
  | .indexed | .anonymous => .positional (s.params.map fun p => p.value.getD .null)

/-- A statement is printed if its parameters can be placed. -/
theorem Statement.format_eq {s : Statement} {config : DialectConfig}
    (hconfig : config.fault? = none) (hjoins : s.JoinsPrinted) :
    s.format config = match Collected.placeAll config s.params .empty with
      | .ok (placeholders, c) =>
        .ok ⟨String.join (Fragment.fill config (s.fragments 0) placeholders), c.toParams config⟩
      | .error f => .error (.format f.message) := by
  unfold Statement.format formatFragments DialectConfig.validate
  rw [hconfig, Fragment.render_eq, Statement.printsParams s hjoins]
  cases Collected.placeAll config s.params .empty <;> rfl

/-- **The printer and the collector agree.** Printing fails exactly on an anonymous parameter or,
with one value for each name, on two mentions that bind a name to different values. Otherwise the
parameters among the fragments are those of the walk, each is replaced by its placeholder, and the
values handed out are the collected ones. -/
theorem Statement.format_params (s : Statement) {config : DialectConfig}
    (hconfig : config.fault? = none) (hjoins : s.JoinsPrinted)
    (hvalues : ∀ p ∈ s.params, ∀ v, p.value = some v → v.WellKeyed) :
    ((∃ e, s.format config = .error e) ↔
        (∃ p ∈ s.params, p.name = none)
          ∨ config.parameterStyle = .named ∧ ∃ p ∈ s.params, ∃ q ∈ s.params, p.Clash q)
      ∧ ∀ out, s.format config = .ok out →
        Fragment.params (s.fragments 0) = s.params
          ∧ out.sql = String.join
            (Fragment.fill config (s.fragments 0) (config.placeholders s.params 0))
          ∧ out.params = s.collectedParams config.parameterStyle
          ∧ ∀ u ∈ s.paramUses, u.value = firstBound u.name s.params := by
  have hformat := Statement.format_eq hconfig hjoins
  by_cases hanonymous : ∃ p ∈ s.params, p.name = none
  · obtain ⟨p, hp, hname⟩ := hanonymous
    obtain ⟨e, he⟩ := Collected.placeAll_anonymous config hp hname .empty
    rw [he] at hformat
    rw [hformat]
    exact ⟨⟨fun _ => Or.inl ⟨p, hp, hname⟩, fun _ => ⟨_, rfl⟩⟩, by simp⟩
  have hnames : ∀ p ∈ s.params, p.name ≠ none := fun p hp hname => hanonymous ⟨p, hp, hname⟩
  have hparams := Statement.printsParams s hjoins 0
  by_cases hstyle : config.parameterStyle = .named
  · have hplace := Collected.placeAll_named hstyle hnames hvalues [] [] 0
    rw [Collected.agree_iff hvalues] at hplace
    by_cases hclash : ∃ p ∈ s.params, ∃ q ∈ s.params, p.Clash q
    · obtain ⟨e, he⟩ := hplace.2 (not_not_intro hclash)
      rw [show Collected.placeAll config s.params .empty = _ from he] at hformat
      rw [hformat]
      exact ⟨⟨fun _ => Or.inr ⟨hstyle, hclash⟩, fun _ => ⟨_, rfl⟩⟩, by simp⟩
    · rw [show Collected.placeAll config s.params .empty = _ from hplace.1 hclash] at hformat
      rw [hformat]
      refine ⟨⟨by simp, ?_⟩, ?_⟩
      · rintro (h | h)
        · exact absurd h hanonymous
        · exact absurd h.2 hclash
      · rintro out hout
        obtain rfl := Except.ok.inj hout
        refine ⟨hparams, rfl, ?_, fun u hu => Statement.value_of_mem_paramUses hu⟩
        unfold Collected.toParams Statement.collectedParams
        rw [hstyle]
        simp [ParamUse.pair, Statement.paramUses, Function.comp_def]
  · have hplace := Collected.placeAll_positional hstyle hnames .empty
    rw [hplace] at hformat
    rw [hformat]
    refine ⟨⟨by simp, ?_⟩, ?_⟩
    · rintro (h | h)
      · exact absurd h hanonymous
      · exact absurd h.1 hstyle
    · rintro out hout
      obtain rfl := Except.ok.inj hout
      refine ⟨hparams, rfl, ?_, fun u hu => Statement.value_of_mem_paramUses hu⟩
      unfold Collected.toParams Statement.collectedParams
      cases hs : config.parameterStyle with
      | named => exact absurd hs hstyle
      | indexed => rfl
      | anonymous => rfl

/-- `SELECT * FROM t WHERE a = :id OR b = :id`, with the values 1 and "x". -/
def clashingMentions : Statement :=
  .ofSelect { Select.simple [.bare (.star none)] (some (.table [] "t" none)) with
    filter := some (.binary
      (.binary (.name "a") .eq (.param (.bound "id" (.nat 1)))) .or
      (.binary (.name "b") .eq (.param (.bound "id" (.string "x"))))) }

theorem clashingMentions_params :
    clashingMentions.params = [.bound "id" (.nat 1), .bound "id" (.string "x")] := by
  rw [Statement.params_eq]
  simp [clashingMentions, Statement.ofSelect, Statement.ctes, Body.params_select, Select.parts,
    Select.simple, Select.tailExprs, SelectItem.bare, Source.params_eq, Source.statement?,
    Expr.params_eq, Expr.param?, Expr.children, Expr.statement?, Expr.name]

theorem clashingMentions_joinsPrinted : clashingMentions.JoinsPrinted := by
  unfold Statement.JoinsPrinted
  rw [Statement.selects_eq]
  simp [clashingMentions, Statement.ofSelect, Statement.ctes, Body.selects_select,
    Select.selects_subqueries, Select.sources, Select.simple, Source.selects, Source.statement?,
    Select.exprs, SelectItem.bare, Expr.selects_eq, Expr.children, Expr.statement?, Expr.name,
    Select.JoinsPrinted]

theorem format_clashingMentions : ∃ e, clashingMentions.format .generic = .error e := by
  have hvalues : ∀ p ∈ clashingMentions.params, ∀ v, p.value = some v → v.WellKeyed := by
    rw [clashingMentions_params]
    rintro p hp v hv
    rcases List.mem_pair.mp hp with rfl | rfl <;> obtain rfl := Option.some.inj hv <;> trivial
  refine (Statement.format_params clashingMentions (by decide) clashingMentions_joinsPrinted
    hvalues).1.mpr (Or.inr ⟨rfl, ?_⟩)
  rw [clashingMentions_params]
  exact ⟨_, List.mem_cons_self, _, List.mem_cons_of_mem _ List.mem_cons_self, "id", _, _, rfl, rfl,
    rfl, rfl, by decide⟩

end Sql
