import Sql.Criteria
import Sql.Proofs.Results

/-!
# Operators in any order

An operator object is read member by member, and each member demands something at one of three
places: the lower bound, the upper bound, or the operator of another kind. Of several demands at one
place the last counts (`foldl_note`). Null is a demand at the place of a bound, namely for no bound,
and is none at the place of another operator. So the order of the members is without effect exactly
if all demands at one place are the same, or if the object is refused in every order (`Settled`).

* `ofOperators_eq`: an operator object by the demands of its members.
* `exists_order`: at every place any of the demands can be the last.
* `Independent.kept`, `Kept.settled` and `Settled.independent`: where the order is without effect no
  demand is lost, where none is lost the demands are settled, and those have one outcome.
* `Criteria.ofJson_order_iff`: the same for the operator object of a key of a criteria object.
-/

namespace Sql

namespace Criterion

/-! ## What a member demands -/

/-- What a member of an operator object demands at its place. -/
inductive Demand
  | low (bound : Option Value)
  | high (bound : Option Value)
  /-- An operator that is no bound; null demands nothing. -/
  | other (c : Option Criterion)

namespace Demand

/-- The demand at the place of the lower bound. -/
def low? : Demand → Option (Option Value)
  | low bound => some bound
  | _ => none

/-- The demand at the place of the upper bound. -/
def high? : Demand → Option (Option Value)
  | high bound => some bound
  | _ => none

/-- The demand at the place of the other operators. -/
def other? : Demand → Option Criterion
  | other c => c
  | _ => none

end Demand

/-- What an operator with its value demands. -/
def demand (op : String) (v : Value) : Except Fault Demand :=
  let word := foldCase op
  if ["min", ">=", "gte"].contains word then .ok (.low (bound? v))
  else if ["max", "<=", "lte"].contains word then .ok (.high (bound? v))
  else if word = "like" then
    match v with
    | .string s => .ok (.other (some (like s)))
    | .null => .ok (.other none)
    | _ => .error .patternNotString
  else if ["eq", "="].contains word then
    match v with
    | .null => .ok (.other none)
    | v => .ok (.other (some (equals v)))
  else if word = "in" then
    match v with
    | .array vs => .ok (.other (some (oneOf vs)))
    | .null => .ok (.other none)
    | _ => .error .listNotArray
  else .error (.unknownOperator word)

/-- The operators read so far, with one more demand. -/
def Operators.note (ops : Operators) : Demand → Operators
  | .low bound => { ops with low := bound }
  | .high bound => { ops with high := bound }
  | .other (some c) => { ops with single := some c }
  | .other none => ops

/-- Taking an operator is noting its demand. -/
theorem Operators.take_eq (ops : Operators) (op : String) (v : Value) :
    ops.take op v = (demand op v).map ops.note := by
  unfold Operators.take demand
  dsimp only
  split
  · rfl
  split
  · rfl
  split
  · cases v <;> rfl
  split
  · cases v <;> rfl
  split
  · cases v <;> rfl
  · rfl

/-- An operator that is no bound is met by neither bound. -/
def IsBoundless (c : Criterion) : Prop :=
  (∃ s, c = like s) ∨ (∃ v, c = equals v) ∨ ∃ vs, c = oneOf vs

theorem isBoundless_of_demand {op : String} {v : Value} {c : Criterion}
    (h : demand op v = .ok (.other (some c))) : c.IsBoundless := by
  unfold demand at h
  dsimp only at h
  split at h
  · simp at h
  split at h
  · simp at h
  split at h
  · cases v <;> simp at h
    exact .inl ⟨_, h.symm⟩
  split at h
  · cases v <;> simp at h <;> exact .inr (.inl ⟨_, h.symm⟩)
  split at h
  · cases v <;> simp at h
    exact .inr (.inr ⟨_, h.symm⟩)
  · simp at h

/-! ## Operator objects by their demands -/

/-- The demands of the members. -/
def demands (members : List (String × Value)) : List Demand :=
  members.filterMap fun m => (demand m.1 m.2).toOption

/-- Every member is an operator with a value that it takes. -/
def Usable (members : List (String × Value)) : Prop := ∀ m ∈ members, ∃ d, demand m.1 m.2 = .ok d

/-- The criterion that demands come to when they are met with in this order. -/
def total (ds : List Demand) : Except Fault Criterion :=
  (ds.foldl Operators.note ⟨none, none, none⟩).criterion

variable {members members' : List (String × Value)} {ds ds' : List Demand}

theorem foldlM_take (h : Usable members) (ops : Operators) :
    members.foldlM (fun ops (op, v) => Operators.take ops op v) ops
      = .ok ((demands members).foldl Operators.note ops) := by
  induction members generalizing ops with
  | nil => rfl
  | cons m members ih =>
    obtain ⟨⟨d, hd⟩, hmembers⟩ := List.forall_mem_cons.mp h
    have hdemands : demands (m :: members) = d :: demands members := by
      rw [demands, List.filterMap_cons_some (by rw [hd]; rfl)]
      rfl
    rw [List.foldlM_cons, hdemands, List.foldl_cons]
    show (Operators.take ops m.1 m.2 >>= fun ops => _) = _
    rw [Operators.take_eq, hd]
    exact ih hmembers (ops.note d)

theorem foldlM_take_error (h : ¬ Usable members) (ops : Operators) :
    ∃ f, members.foldlM (fun ops (op, v) => Operators.take ops op v) ops = .error f := by
  induction members generalizing ops with
  | nil => exact absurd (fun m hm => by simp at hm) h
  | cons m members ih =>
    rw [List.foldlM_cons]
    show ∃ f, (Operators.take ops m.1 m.2 >>= fun ops => _) = .error f
    rw [Operators.take_eq]
    cases hd : demand m.1 m.2 with
    | error f => exact ⟨f, rfl⟩
    | ok d => exact ih (fun hmembers => h (List.forall_mem_cons.mpr ⟨⟨d, hd⟩, hmembers⟩)) _

/-- **An operator object stands for the total of its demands,** unless it is empty or has a member
that is no usable operator. -/
theorem ofOperators_eq (h : Usable members) (hne : members ≠ []) :
    ofOperators members = total (demands members) := by
  unfold ofOperators
  rw [if_neg (by simpa using hne), foldlM_take h]
  rfl

theorem ofOperators_error (h : ¬ Usable members) : ∃ f, ofOperators members = .error f := by
  unfold ofOperators
  split
  · exact ⟨_, rfl⟩
  · obtain ⟨f, hf⟩ := foldlM_take_error h ⟨none, none, none⟩
    exact ⟨f, by rw [hf]; rfl⟩

theorem Usable.perm (h : Usable members) (hperm : members.Perm members') : Usable members' :=
  fun m hm => h m (hperm.mem_iff.mpr hm)

theorem demands_perm (hperm : members.Perm members') : (demands members).Perm (demands members') :=
  hperm.filterMap _

/-! ## The last demand at each place -/

/-- **The last demand at each place counts.** -/
theorem foldl_note (ds : List Demand) (ops : Operators) :
    ds.foldl Operators.note ops =
      ⟨(ds.filterMap Demand.low?).getLast?.getD ops.low,
        (ds.filterMap Demand.high?).getLast?.getD ops.high,
        (ds.filterMap Demand.other?).getLast?.or ops.single⟩ := by
  induction ds generalizing ops with
  | nil => rfl
  | cons d ds ih =>
    rw [List.foldl_cons, ih]
    rcases d with bound | bound | (_ | c) <;>
      simp [Operators.note, Demand.low?, Demand.high?, Demand.other?, List.getLast?_cons]

/-- What demands come to by the last of them at each place. -/
theorem total_eq (ds : List Demand) :
    total ds = Operators.criterion ⟨(ds.filterMap Demand.low?).getLast?.getD none,
      (ds.filterMap Demand.high?).getLast?.getD none, (ds.filterMap Demand.other?).getLast?⟩ := by
  rw [total, foldl_note, Option.or_none]

/-- The item can be the last of the list, in some order. There is no last item only if the list is
empty. -/
def CanBeLast {α : Type} (last : Option α) (xs : List α) : Prop :=
  (∀ x ∈ last, x ∈ xs) ∧ (last = none → xs = [])

theorem canBeLast_getLast? {α : Type} (xs : List α) : CanBeLast xs.getLast? xs :=
  ⟨fun _ h => List.mem_of_getLast? h, List.getLast?_eq_none_iff.mp⟩

theorem canBeLast_some {α : Type} {x : α} {xs : List α} (h : x ∈ xs) : CanBeLast (some x) xs :=
  ⟨fun y hy => by rw [← Option.some.inj hy]; exact h, fun h => by cases h⟩

/-- The last item of any order of the list can be the last. -/
theorem canBeLast_of_perm {α : Type} {xs ys : List α} (hperm : xs.Perm ys) :
    CanBeLast ys.getLast? xs := by
  obtain ⟨hmem, hnone⟩ := canBeLast_getLast? ys
  refine ⟨fun y hy => hperm.mem_iff.mpr (hmem y hy), fun h => ?_⟩
  rw [hnone h] at hperm
  exact hperm.eq_nil

/-- Some order of a list puts an item last at its place and leaves the other places alone. -/
theorem exists_perm_last {α β : Type} {f : α → Option β} {last : Option β} {xs : List α}
    (h : CanBeLast last (xs.filterMap f)) :
    ∃ ys, xs.Perm ys ∧ (ys.filterMap f).getLast? = last
      ∧ ∀ {γ : Type} (g : α → Option γ), (∀ x b, f x = some b → g x = none) →
        ys.filterMap g = xs.filterMap g := by
  cases last with
  | none => exact ⟨xs, .refl xs, by rw [h.2 rfl]; rfl, fun _ _ => rfl⟩
  | some b =>
    obtain ⟨x, hx, hb⟩ := List.mem_filterMap.mp (h.1 b rfl)
    obtain ⟨before, after, rfl⟩ := List.append_of_mem hx
    -- the item moves to the end, and no other place looks at it
    refine ⟨before ++ (after ++ [x]), ?_, ?_, fun g hg => ?_⟩
    · exact (List.perm_append_singleton x after).symm.append_left before
    · simp [hb]
    · simp [hg x b hb]

/-- **At every place any demand can be the last.** -/
theorem exists_order {low high : Option (Option Value)} {other : Option Criterion}
    (hlow : CanBeLast low (ds.filterMap Demand.low?))
    (hhigh : CanBeLast high (ds.filterMap Demand.high?))
    (hother : CanBeLast other (ds.filterMap Demand.other?)) :
    ∃ ds', ds.Perm ds' ∧ total ds' = Operators.criterion ⟨low.getD none, high.getD none, other⟩ := by
  -- one place after the other; what is done for one does not undo the ones before
  obtain ⟨ds₁, hperm₁, hlast₁, hkept₁⟩ := exists_perm_last hlow
  rw [← hkept₁ Demand.high? (by rintro (_ | _ | _) <;> simp [Demand.low?, Demand.high?])] at hhigh
  rw [← hkept₁ Demand.other? (by rintro (_ | _ | _) <;> simp [Demand.low?, Demand.other?])] at hother
  obtain ⟨ds₂, hperm₂, hlast₂, hkept₂⟩ := exists_perm_last hhigh
  rw [← hkept₂ Demand.other? (by rintro (_ | _ | _) <;> simp [Demand.high?, Demand.other?])] at hother
  obtain ⟨ds₃, hperm₃, hlast₃, hkept₃⟩ := exists_perm_last hother
  refine ⟨ds₃, hperm₁.trans (hperm₂.trans hperm₃), ?_⟩
  rw [total_eq, hlast₃,
    hkept₃ Demand.high? (by rintro (_ | _ | (_ | _)) <;> simp [Demand.other?, Demand.high?]), hlast₂,
    hkept₃ Demand.low? (by rintro (_ | _ | (_ | _)) <;> simp [Demand.other?, Demand.low?]),
    hkept₂ Demand.low? (by rintro (_ | _ | _) <;> simp [Demand.high?, Demand.low?]), hlast₁]

/-! ## Demands that do not depend on their order -/

/-- All items are the same. -/
def Agree {α : Type} (xs : List α) : Prop := ∀ x ∈ xs, ∀ y ∈ xs, x = y

theorem Agree.last_unique {α : Type} {xs : List α} {last last' : Option α} (h : Agree xs)
    (hlast : CanBeLast last xs) (hlast' : CanBeLast last' xs) : last = last' := by
  cases last with
  | none =>
    cases last' with
    | none => rfl
    | some y =>
      have hy := hlast'.1 y rfl
      rw [hlast.2 rfl] at hy
      cases hy
  | some x =>
    have hx := hlast.1 x rfl
    cases last' with
    | none =>
      rw [hlast'.2 rfl] at hx
      cases hx
    | some y => exact congrArg some (h x hx y (hlast'.1 y rfl))

theorem Agree.getLast?_eq {α : Type} {xs ys : List α} (h : Agree xs) (hperm : xs.Perm ys) :
    ys.getLast? = xs.getLast? :=
  h.last_unique (canBeLast_of_perm hperm) (canBeLast_getLast? xs)

/-- At one place there are demands, and each is for a bound. -/
def IsBounded (bounds : List (Option Value)) : Prop := bounds ≠ [] ∧ none ∉ bounds

/-- The demands come to the same in every order: either those at one place are all the same, or in
every order a bound goes together with another operator, which is refused. -/
def Settled (ds : List Demand) : Prop :=
  (Agree (ds.filterMap Demand.low?) ∧ Agree (ds.filterMap Demand.high?)
      ∧ Agree (ds.filterMap Demand.other?))
    ∨ ds.filterMap Demand.other? ≠ []
      ∧ (IsBounded (ds.filterMap Demand.low?) ∨ IsBounded (ds.filterMap Demand.high?))

/-- A place with demands for a bound has one, whichever demand is the last. -/
theorem IsBounded.isSome {bounds : List (Option Value)} {last : Option (Option Value)}
    (h : IsBounded bounds) (hlast : CanBeLast last bounds) : (last.getD none).isSome = true := by
  rcases last with _ | _ | v
  · exact absurd (hlast.2 rfl) h.1
  · exact absurd (hlast.1 none rfl) h.2
  · rfl

/-- A place that need not have a bound has none in some order. -/
theorem exists_canBeLast_none {bounds : List (Option Value)} (h : ¬ IsBounded bounds) :
    ∃ last, CanBeLast last bounds ∧ last.getD none = none := by
  by_cases hnil : bounds = []
  · exact ⟨none, ⟨fun _ hx => (by cases hx), fun _ => hnil⟩, rfl⟩
  · have hnone : none ∈ bounds := Classical.byContradiction fun hnone => h ⟨hnil, hnone⟩
    exact ⟨some none, canBeLast_some hnone, rfl⟩

/-- An operator is refused next to a bound. -/
theorem total_refused (hother : ds.filterMap Demand.other? ≠ [])
    (hbounded : IsBounded (ds.filterMap Demand.low?) ∨ IsBounded (ds.filterMap Demand.high?))
    (hperm : ds.Perm ds') : total ds' = .error .mixedRange := by
  have hlast := canBeLast_of_perm (hperm.filterMap Demand.other?)
  rw [total_eq, Operators.criterion]
  cases hc : (ds'.filterMap Demand.other?).getLast? with
  | none => exact absurd (hlast.2 hc) hother
  | some c =>
    refine if_pos ?_
    rw [Bool.or_eq_true]
    rcases hbounded with h | h
    · exact .inl (h.isSome (canBeLast_of_perm (hperm.filterMap Demand.low?)))
    · exact .inr (h.isSome (canBeLast_of_perm (hperm.filterMap Demand.high?)))

/-- The lower bound that a criterion asks for. -/
def lower? : Criterion → Option Value
  | atLeast v => some v
  | range low _ => low
  | _ => none

/-- The upper bound that a criterion asks for. -/
def upper? : Criterion → Option Value
  | atMost v => some v
  | range _ high => high
  | _ => none

theorem lower?_normalized (low high : Option Value) : (range low high).normalized.lower? = low := by
  cases low <;> cases high <;> rfl

theorem upper?_normalized (low high : Option Value) :
    (range low high).normalized.upper? = high := by
  cases low <;> cases high <;> rfl

/-- A criterion of two bounds, or of one operator next to no bound. -/
theorem criterion_eq_ok {low high : Option Value} {other : Option Criterion} {c : Criterion} :
    Operators.criterion ⟨low, high, other⟩ = .ok c
      ↔ (other = none ∧ c = (range low high).normalized)
        ∨ (other = some c ∧ low = none ∧ high = none) := by
  rw [Operators.criterion]
  cases other with
  | none => simp [eq_comm]
  | some d => cases low <;> cases high <;> simp

/-- What a criterion has to ask for so that a demand is not lost. -/
def Demand.MetBy : Demand → Criterion → Prop
  | .low (some v), c => c.lower? = some v
  | .high (some v), c => c.upper? = some v
  | .other (some d), c => c = d
  | _, _ => True

/-- The order of the demands is without effect. Of errors it does not matter which one arises. -/
def Independent (ds : List Demand) : Prop :=
  ∀ ds', ds.Perm ds' → (total ds').toOption = (total ds).toOption

/-- In no order a demand is lost. -/
def Kept (ds : List Demand) : Prop :=
  ∀ ds', ds.Perm ds' → ∀ c, total ds' = .ok c → ∀ d ∈ ds, d.MetBy c

theorem mem_low? {bound : Option Value} : bound ∈ ds.filterMap Demand.low? ↔ .low bound ∈ ds := by
  rw [List.mem_filterMap]
  constructor
  · rintro ⟨_ | _ | _, hd, h⟩ <;> cases h
    exact hd
  · exact fun h => ⟨_, h, rfl⟩

theorem mem_high? {bound : Option Value} :
    bound ∈ ds.filterMap Demand.high? ↔ .high bound ∈ ds := by
  rw [List.mem_filterMap]
  constructor
  · rintro ⟨_ | _ | _, hd, h⟩ <;> cases h
    exact hd
  · exact fun h => ⟨_, h, rfl⟩

theorem mem_other? {c : Criterion} :
    c ∈ ds.filterMap Demand.other? ↔ .other (some c) ∈ ds := by
  rw [List.mem_filterMap]
  constructor
  · rintro ⟨_ | _ | _, hd, h⟩ <;> cases h
    exact hd
  · exact fun h => ⟨_, h, rfl⟩

/-- A demand that is the last at its place is not lost. -/
theorem exists_order_met {d : Demand} (hd : d ∈ ds) :
    ∃ ds', ds.Perm ds' ∧ ∀ c, total ds' = .ok c → d.MetBy c := by
  have hlow := canBeLast_getLast? (ds.filterMap Demand.low?)
  have hhigh := canBeLast_getLast? (ds.filterMap Demand.high?)
  have hother := canBeLast_getLast? (ds.filterMap Demand.other?)
  rcases d with (_ | v) | (_ | v) | (_ | e)
  · exact ⟨ds, .refl ds, fun _ _ => trivial⟩
  · obtain ⟨ds', hperm, htotal⟩ := exists_order (canBeLast_some (mem_low?.mpr hd)) hhigh hother
    refine ⟨ds', hperm, fun c hc => ?_⟩
    rw [htotal] at hc
    rcases criterion_eq_ok.mp hc with ⟨-, rfl⟩ | ⟨-, h, -⟩
    · exact lower?_normalized _ _
    · cases h
  · exact ⟨ds, .refl ds, fun _ _ => trivial⟩
  · obtain ⟨ds', hperm, htotal⟩ := exists_order hlow (canBeLast_some (mem_high?.mpr hd)) hother
    refine ⟨ds', hperm, fun c hc => ?_⟩
    rw [htotal] at hc
    rcases criterion_eq_ok.mp hc with ⟨-, rfl⟩ | ⟨-, -, h⟩
    · exact upper?_normalized _ _
    · cases h
  · exact ⟨ds, .refl ds, fun _ _ => trivial⟩
  · obtain ⟨ds', hperm, htotal⟩ := exists_order hlow hhigh (canBeLast_some (mem_other?.mpr hd))
    refine ⟨ds', hperm, fun c hc => ?_⟩
    rw [htotal] at hc
    rcases criterion_eq_ok.mp hc with ⟨h, -⟩ | ⟨h, -⟩
    · cases h
    · exact (Option.some.inj h).symm

/-- Where the order is without effect, every demand could as well be the last. -/
theorem Independent.kept (h : Independent ds) : Kept ds := by
  intro ds' hperm c hc d hd
  obtain ⟨ds'', hperm', hmet⟩ := exists_order_met hd
  refine hmet c ?_
  have hsame := (h ds'' hperm').trans (h ds' hperm).symm
  rw [hc] at hsame
  cases htotal : total ds'' with
  | error f => simp [htotal, Except.toOption] at hsame
  | ok e => simpa [htotal, Except.toOption] using hsame

theorem agree_of_bounds {bounds : List (Option Value)}
    (h : ∀ bound ∈ bounds, ∀ v, some v ∈ bounds → bound = some v) : Agree bounds := by
  intro x hx y hy
  cases y with
  | some v => exact h x hx v hy
  | none =>
    cases x with
    | none => rfl
    | some v => exact (h none hy v hx).symm

/-- Where no order loses a demand, the demands at one place are all the same, or are refused. -/
theorem Kept.settled (h : Kept ds) (hother : ∀ c ∈ ds.filterMap Demand.other?, c.IsBoundless) :
    Settled ds := by
  have hmet : ∀ {low high : Option (Option Value)} {other : Option Criterion},
      CanBeLast low (ds.filterMap Demand.low?) → CanBeLast high (ds.filterMap Demand.high?) →
      CanBeLast other (ds.filterMap Demand.other?) →
      ∀ c, Operators.criterion ⟨low.getD none, high.getD none, other⟩ = .ok c →
        ∀ d ∈ ds, d.MetBy c := by
    intro low high other hlow hhigh hother c hc d hd
    obtain ⟨ds', hperm, htotal⟩ := exists_order hlow hhigh hother
    exact h ds' hperm c (htotal.trans hc) d hd
  by_cases hnone : ds.filterMap Demand.other? = []
  · have hlow := canBeLast_getLast? (ds.filterMap Demand.low?)
    have hhigh := canBeLast_getLast? (ds.filterMap Demand.high?)
    have hlast : CanBeLast none (ds.filterMap Demand.other?) :=
      ⟨fun _ hc => (by cases hc), fun _ => hnone⟩
    refine .inl ⟨agree_of_bounds fun x hx v hv => ?_, agree_of_bounds fun x hx v hv => ?_, ?_⟩
    · have hv := hmet (canBeLast_some hx) hhigh hlast _ rfl _ (mem_low?.mp hv)
      exact (lower?_normalized _ _).symm.trans hv
    · have hv := hmet hlow (canBeLast_some hx) hlast _ rfl _ (mem_high?.mp hv)
      exact (upper?_normalized _ _).symm.trans hv
    · rw [hnone]
      exact fun c hc => (by cases hc)
  by_cases hbounded :
      IsBounded (ds.filterMap Demand.low?) ∨ IsBounded (ds.filterMap Demand.high?)
  · exact .inr ⟨hnone, hbounded⟩
  -- some order leaves an operator without a bound, and loses all other operators and bounds
  rw [not_or] at hbounded
  obtain ⟨low, hlow, hlow_none⟩ := exists_canBeLast_none hbounded.1
  obtain ⟨high, hhigh, hhigh_none⟩ := exists_canBeLast_none hbounded.2
  obtain ⟨c, hc⟩ := List.exists_mem_of_ne_nil _ hnone
  have hmet := hmet hlow hhigh (canBeLast_some hc) c
    (criterion_eq_ok.mpr (.inr ⟨rfl, hlow_none, hhigh_none⟩))
  refine .inl ⟨agree_of_bounds fun x _ v hv => ?_, agree_of_bounds fun x _ v hv => ?_,
    fun d hd e he => ?_⟩
  · have hv : c.lower? = some v := hmet _ (mem_low?.mp hv)
    rcases hother c hc with ⟨_, rfl⟩ | ⟨_, rfl⟩ | ⟨_, rfl⟩ <;> cases hv
  · have hv : c.upper? = some v := hmet _ (mem_high?.mp hv)
    rcases hother c hc with ⟨_, rfl⟩ | ⟨_, rfl⟩ | ⟨_, rfl⟩ <;> cases hv
  · have hd : c = d := hmet _ (mem_other?.mp hd)
    have he : c = e := hmet _ (mem_other?.mp he)
    exact hd.symm.trans he

theorem Settled.independent (h : Settled ds) : Independent ds := by
  intro ds' hperm
  rcases h with ⟨hlow, hhigh, hother⟩ | ⟨hother, hbounded⟩
  · rw [total_eq, total_eq, hlow.getLast?_eq (hperm.filterMap _),
      hhigh.getLast?_eq (hperm.filterMap _), hother.getLast?_eq (hperm.filterMap _)]
  · rw [total_refused hother hbounded hperm, total_refused hother hbounded (.refl ds)]

/-! ## Operator objects in any order -/

/-- Every order of the demands is that of some order of the members. -/
theorem exists_perm_filterMap {α β : Type} {f : α → Option β} {xs : List α} {ys : List β}
    (h : (xs.filterMap f).Perm ys) : ∃ xs', xs.Perm xs' ∧ xs'.filterMap f = ys := by
  induction ys generalizing xs with
  | nil => exact ⟨xs, .refl xs, h.eq_nil⟩
  | cons y ys ih =>
    obtain ⟨x, hx, hy⟩ := List.mem_filterMap.mp (h.mem_iff.mpr List.mem_cons_self)
    obtain ⟨before, after, rfl⟩ := List.append_of_mem hx
    have hfront : (before ++ x :: after).Perm (x :: (before ++ after)) := List.perm_middle
    have hrest : ((before ++ after).filterMap f).Perm ys := by
      have hcons := (hfront.filterMap f).symm.trans h
      rw [List.filterMap_cons_some hy] at hcons
      exact hcons.cons_inv
    obtain ⟨xs', hperm, hxs'⟩ := ih hrest
    refine ⟨x :: xs', hfront.trans (hperm.cons x), ?_⟩
    rw [List.filterMap_cons_some hy, hxs']

theorem isBoundless_of_mem_demands {c : Criterion}
    (h : c ∈ (demands members).filterMap Demand.other?) : c.IsBoundless := by
  obtain ⟨m, -, hm⟩ := List.mem_filterMap.mp (mem_other?.mp h)
  cases hd : demand m.1 m.2 with
  | error f => simp [hd, Except.toOption] at hm
  | ok d =>
    obtain rfl : d = .other (some c) := by simpa [hd, Except.toOption] using hm
    exact isBoundless_of_demand hd

/-- The criterion of an operator object does not depend on the order of its members. -/
def OrderFree (members : List (String × Value)) : Prop :=
  ∀ members', members.Perm members' →
    (ofOperators members').toOption = (ofOperators members).toOption

/-- In no order of its members an operator object stands for a criterion without one of its bounds
or operators. -/
def LosesNone (members : List (String × Value)) : Prop :=
  ∀ members', members.Perm members' → ∀ c, ofOperators members' = .ok c →
    ∀ m ∈ members, ∀ d, demand m.1 m.2 = .ok d → d.MetBy c

/-- The object is refused for one of its members, or its demands come to the same in every order. -/
def IsSettled (members : List (String × Value)) : Prop :=
  Usable members → Settled (demands members)

theorem isSettled_nil : IsSettled [] := fun _ =>
  .inl ⟨fun _ h => (by cases h), fun _ h => (by cases h), fun _ h => (by cases h)⟩

theorem ofOperators_perm (h : Usable members) (hne : members ≠ [])
    (hperm : members.Perm members') : ofOperators members' = total (demands members') := by
  refine ofOperators_eq (h.perm hperm) fun hnil => hne ?_
  rw [hnil] at hperm
  exact hperm.eq_nil

theorem orderFree_iff : OrderFree members ↔ IsSettled members := by
  by_cases hne : members = []
  · subst hne
    exact ⟨fun _ => isSettled_nil, fun _ members' hperm => by rw [hperm.nil_eq]⟩
  by_cases husable : Usable members
  · have htotal : ∀ members', members.Perm members' →
        ofOperators members' = total (demands members') := fun _ => ofOperators_perm husable hne
    constructor
    · intro h _
      have hfree : Independent (demands members) := by
        intro ds' hperm
        obtain ⟨members', hperm', rfl⟩ := exists_perm_filterMap hperm
        have h := h members' hperm'
        rw [htotal members' hperm', htotal members (.refl members)] at h
        exact h
      exact hfree.kept.settled fun c hc => isBoundless_of_mem_demands hc
    · intro h members' hperm
      rw [htotal members' hperm, htotal members (.refl members)]
      exact (h husable).independent _ (demands_perm hperm)
  · refine ⟨fun _ h => absurd h husable, fun _ members' hperm => ?_⟩
    obtain ⟨f, hf⟩ := ofOperators_error husable
    obtain ⟨f', hf'⟩ := ofOperators_error fun h => husable (h.perm hperm.symm)
    rw [hf, hf']
    rfl

theorem losesNone_iff : LosesNone members ↔ IsSettled members := by
  by_cases hne : members = []
  · subst hne
    exact ⟨fun _ => isSettled_nil, fun _ _ _ _ _ m hm => by cases hm⟩
  by_cases husable : Usable members
  · have htotal : ∀ members', members.Perm members' →
        ofOperators members' = total (demands members') := fun _ => ofOperators_perm husable hne
    constructor
    · intro h _
      have hkept : Kept (demands members) := by
        intro ds' hperm c hc d hd
        obtain ⟨members', hperm', rfl⟩ := exists_perm_filterMap hperm
        obtain ⟨m, hm, hd⟩ := List.mem_filterMap.mp hd
        refine h members' hperm' c ((htotal members' hperm').trans hc) m hm d ?_
        cases hdemand : demand m.1 m.2 with
        | error f => simp [hdemand, Except.toOption] at hd
        | ok e => simpa [hdemand, Except.toOption] using hd
      exact hkept.settled fun c hc => isBoundless_of_mem_demands hc
    · intro h members' hperm c hc m hm d hd
      rw [htotal members' hperm] at hc
      refine (h husable).independent.kept _ (demands_perm hperm) c hc d ?_
      exact List.mem_filterMap.mpr ⟨m, hm, by rw [hd]; rfl⟩
  · refine ⟨fun _ h => absurd h husable, fun _ members' hperm c hc => ?_⟩
    obtain ⟨f, hf⟩ := ofOperators_error fun h => husable (h.perm hperm.symm)
    cases hf.symm.trans hc

end Criterion

/-! ## Criteria objects -/

namespace Criteria

open Criterion

/-- A step that leads to the same from everywhere, or nowhere, can be exchanged. -/
theorem toOption_foldlM_congr {ε α β : Type} {f : β → α → Except ε β} {x y : α}
    (h : ∀ b, (f b x).toOption = (f b y).toOption) (before after : List α) (b : β) :
    ((before ++ x :: after).foldlM f b).toOption = ((before ++ y :: after).foldlM f b).toOption := by
  induction before generalizing b with
  | nil =>
    have hstep := h b
    rw [List.nil_append, List.nil_append, List.foldlM_cons, List.foldlM_cons]
    cases hx : f b x <;> cases hy : f b y <;> simp [hx, hy, Except.toOption] at hstep
    · rfl
    · rw [hstep]
  | cons z before ih =>
    rw [List.cons_append, List.cons_append, List.foldlM_cons, List.foldlM_cons]
    cases f b z with
    | error e => rfl
    | ok b => exact ih b

/-- Values of one key that stand for the same criterion, or for none, can be exchanged. -/
theorem ofJson_congr {v w : Value}
    (h : (Criterion.ofJson v).toOption = (Criterion.ofJson w).toOption)
    (before : List (String × Value)) (key : String) (after : List (String × Value)) :
    (ofJson (.object (before ++ (key, v) :: after))).toOption
      = (ofJson (.object (before ++ (key, w) :: after))).toOption := by
  refine toOption_foldlM_congr (fun cs => ?_) before after empty
  dsimp only
  cases hv : Criterion.ofJson v <;> cases hw : Criterion.ofJson w <;>
    simp [hv, hw, Except.toOption] at h
  · rfl
  · rw [h]

theorem toOption_ofJson_single (key : String) (members : List (String × Value)) :
    (ofJson (.object [(key, .object members)])).toOption
      = (ofOperators members).toOption.map fun c => ⟨[(key, c)]⟩ := by
  have hobject : Criterion.ofJson (.object members) = ofOperators members := rfl
  rw [ofJson, List.foldlM_cons]
  dsimp only
  rw [hobject]
  cases ofOperators members <;> rfl

/-- **When the order of operators is without effect.** In a criteria object, the members of the
operator object of any key can be put in any order, for the same criteria or an error again, exactly
if the operators are settled. Exactly then no order loses a bound or an operator silently. -/
theorem ofJson_order_iff (members : List (String × Value)) :
    ((∀ members', members.Perm members' → ∀ before key after,
        (ofJson (.object (before ++ (key, .object members') :: after))).toOption
          = (ofJson (.object (before ++ (key, .object members) :: after))).toOption)
      ↔ IsSettled members)
    ∧ ((∀ members', members.Perm members' → ∀ c, ofOperators members' = .ok c →
        ∀ m ∈ members, ∀ d, demand m.1 m.2 = .ok d → d.MetBy c)
      ↔ IsSettled members) := by
  refine ⟨?_, losesNone_iff⟩
  rw [← orderFree_iff]
  constructor
  · intro h members' hperm
    have hsame := h members' hperm [] "" []
    rw [List.nil_append, List.nil_append, toOption_ofJson_single, toOption_ofJson_single] at hsame
    exact Option.map_injective (fun c d hcd => by simpa using hcd) hsame
  · intro h members' hperm before key after
    exact ofJson_congr (v := .object members') (w := .object members) (h members' hperm) before key after

/-- Null behind a bound takes it away, and leaves another operator as it is. -/
example :
    ofOperators [("min", .nat 5), ("gte", .null)] = .ok .omitted
      ∧ ofOperators [("gte", .null), ("min", .nat 5)] = .ok (.atLeast (.nat 5))
      ∧ ofOperators [("eq", .nat 5), ("=", .null)] = .ok (.equals (.nat 5)) :=
  ⟨rfl, rfl, rfl⟩

end Criteria

end Sql
