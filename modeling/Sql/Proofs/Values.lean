import Mathlib.Data.List.Perm.Subperm
import Sql.Value.Reader

/-!
# Equal values

`Value.same` compares objects member by member, by a lookup of each key. That makes an equivalence
of it only where no object has a key twice, which is what `Value.WellKeyed` says.

* `Value.same_refl`, `Value.same_symm` and `Value.same_trans`: the equivalence.
* `Value.ofText?_wellKeyed`: a value that was read from a text is well keyed.
-/

namespace Sql

namespace Double

theorem same_refl (a : Double) : a.same a = true := by
  simp [same]

theorem same_symm {a b : Double} (h : a.same b = true) : b.same a = true := by
  simp only [same, Bool.or_eq_true, Bool.and_eq_true, beq_iff_eq] at h ⊢
  rcases h with h | ⟨ha, hb⟩
  · exact Or.inl h.symm
  · exact Or.inr ⟨hb, ha⟩

theorem same_trans {a b c : Double} (hab : a.same b = true) (hbc : b.same c = true) :
    a.same c = true := by
  simp only [same, Bool.or_eq_true, Bool.and_eq_true, beq_iff_eq] at hab hbc ⊢
  rcases hab with rfl | ⟨ha, hb⟩
  · exact hbc
  · rcases hbc with rfl | ⟨_, hc⟩
    · exact Or.inr ⟨ha, hb⟩
    · exact Or.inr ⟨ha, hc⟩

end Double

namespace Number

theorem same_refl (a : Number) : a.same a = true := by
  cases a with
  | whole n => simp [same]
  | double d => exact Double.same_refl d

theorem same_symm {a b : Number} (h : a.same b = true) : b.same a = true := by
  cases a with
  | whole m =>
    cases b with
    | whole n =>
      simp only [same, beq_iff_eq] at h ⊢
      exact h.symm
    | double d => simp [same] at h
  | double d =>
    cases b with
    | whole n => simp [same] at h
    | double e => exact Double.same_symm h

theorem same_trans {a b c : Number} (hab : a.same b = true) (hbc : b.same c = true) :
    a.same c = true := by
  cases a <;> cases b <;> simp only [same, Bool.false_eq_true, beq_iff_eq] at hab <;>
    cases c <;> simp only [same, Bool.false_eq_true, beq_iff_eq] at hbc ⊢
  · exact hab.trans hbc
  · exact Double.same_trans hab hbc

end Number

namespace Value

/-! ## Members by their keys -/

theorem mem_of_lookup {key : String} {v : Value} {ms : List (String × Value)}
    (h : lookup key ms = some v) : (key, v) ∈ ms := by
  induction ms with
  | nil => simp [lookup] at h
  | cons m ms ih =>
    obtain ⟨k, w⟩ := m
    unfold lookup at h
    split at h
    · next hk =>
      obtain rfl := hk
      obtain rfl := Option.some.inj h
      exact List.mem_cons_self
    · exact List.mem_cons_of_mem _ (ih h)

/-- With distinct keys, every member is found under its key. -/
theorem lookup_of_mem {key : String} {v : Value} {ms : List (String × Value)}
    (hkeys : (ms.map Prod.fst).Nodup) (h : (key, v) ∈ ms) : lookup key ms = some v := by
  induction ms with
  | nil => simp at h
  | cons m ms ih =>
    obtain ⟨k, w⟩ := m
    rw [List.map_cons, List.nodup_cons] at hkeys
    unfold lookup
    rcases List.mem_cons.mp h with heq | hmem
    · obtain ⟨rfl, rfl⟩ := Prod.mk.inj heq
      exact if_pos rfl
    · have hne : k ≠ key := by
        rintro rfl
        exact hkeys.1 (List.mem_map.mpr ⟨_, hmem, rfl⟩)
      rw [if_neg hne]
      exact ih hkeys.2 hmem

theorem sameMembers_iff {as bs : List (String × Value)} :
    sameMembers as bs = true ↔
      ∀ m ∈ as, ∃ b, lookup m.1 bs = some b ∧ m.2.same b = true := by
  induction as with
  | nil => simp [sameMembers]
  | cons m as ih =>
    obtain ⟨k, a⟩ := m
    rw [sameMembers, Bool.and_eq_true, ih, List.forall_mem_cons]
    refine and_congr ?_ Iff.rfl
    cases lookup k bs <;> simp

/-! ## Values with distinct keys -/

mutual

/-- No object in the value has a key twice. -/
def WellKeyed : Value → Prop
  | null | bool _ | number _ | string _ => True
  | array items => ItemsWellKeyed items
  | object members => (members.map Prod.fst).Nodup ∧ MembersWellKeyed members

/-- Every item is well keyed. -/
def ItemsWellKeyed : List Value → Prop
  | [] => True
  | v :: vs => v.WellKeyed ∧ ItemsWellKeyed vs

/-- The value of every member is well keyed. -/
def MembersWellKeyed : List (String × Value) → Prop
  | [] => True
  | (_, v) :: ms => v.WellKeyed ∧ MembersWellKeyed ms

end

theorem wellKeyed_of_mem {m : String × Value} {ms : List (String × Value)}
    (h : MembersWellKeyed ms) (hm : m ∈ ms) : m.2.WellKeyed := by
  induction ms with
  | nil => simp at hm
  | cons n ms ih =>
    obtain ⟨k, v⟩ := n
    unfold MembersWellKeyed at h
    rcases List.mem_cons.mp hm with rfl | hm
    · exact h.1
    · exact ih h.2 hm

/-! ## The equivalence -/

mutual

/-- **A well-keyed value is the same as itself.** -/
theorem same_refl : ∀ v : Value, v.WellKeyed → v.same v = true
  | null, _ => by simp [same]
  | bool b, _ => by simp [same]
  | number n, _ => by
    rw [same]
    exact Number.same_refl n
  | string s, _ => by simp [same]
  | array vs, h => by
    rw [same]
    exact sameItems_refl vs (by rwa [WellKeyed] at h)
  | object ms, h => by
    rw [WellKeyed] at h
    rw [same, Bool.and_eq_true, beq_self_eq_true, sameMembers_iff]
    refine ⟨rfl, fun m hm => ⟨m.2, lookup_of_mem h.1 hm, ?_⟩⟩
    exact members_same_refl ms h.2 m hm

theorem sameItems_refl : ∀ vs : List Value, ItemsWellKeyed vs → sameItems vs vs = true
  | [], _ => by rw [sameItems]
  | v :: vs, h => by
    rw [ItemsWellKeyed] at h
    rw [sameItems, same_refl v h.1, sameItems_refl vs h.2]
    rfl

theorem members_same_refl : ∀ ms : List (String × Value), MembersWellKeyed ms →
    ∀ m ∈ ms, m.2.same m.2 = true
  | [], _ => by simp
  | (_, v) :: ms, h => by
    rw [MembersWellKeyed] at h
    intro m hm
    rcases List.mem_cons.mp hm with rfl | hm
    · exact same_refl v h.1
    · exact members_same_refl ms h.2 m hm

end

/-- Two objects of equal size with distinct keys have the same keys if the keys of one are among
those of the other. -/
theorem keys_subset {as bs : List (String × Value)} (has : (as.map Prod.fst).Nodup)
    (hlength : as.length = bs.length)
    (hsub : ∀ m ∈ as, ∃ b, lookup m.1 bs = some b ∧ m.2.same b = true) :
    bs.map Prod.fst ⊆ as.map Prod.fst := by
  have hkeys : as.map Prod.fst ⊆ bs.map Prod.fst := by
    intro k hk
    obtain ⟨m, hm, rfl⟩ := List.mem_map.mp hk
    obtain ⟨b, hb, -⟩ := hsub m hm
    exact List.mem_map.mpr ⟨_, mem_of_lookup hb, rfl⟩
  have hperm : (as.map Prod.fst).Perm (bs.map Prod.fst) :=
    (has.subperm hkeys).perm_of_length_le (by simp [hlength])
  exact hperm.symm.subset

mutual

/-- **Being the same value does not depend on the side.** -/
theorem same_symm : ∀ a : Value, a.WellKeyed → ∀ b : Value, b.WellKeyed →
    a.same b = true → b.same a = true
  | null, _, b, _, h => by cases b <;> simp_all [same]
  | bool x, _, b, _, h => by cases b <;> simp_all [same]
  | string s, _, b, _, h => by cases b <;> simp_all [same]
  | number m, _, b, _, h => by
    cases b <;> simp only [same, Bool.false_eq_true] at h ⊢
    exact Number.same_symm h
  | array as, ha, b, hb, h => by
    cases b <;> simp only [same, Bool.false_eq_true] at h ⊢
    rw [WellKeyed] at ha hb
    exact sameItems_symm as ha _ hb h
  | object as, ha, b, hb, h => by
    cases b <;> simp only [same, Bool.false_eq_true] at h ⊢
    next bs =>
    rw [WellKeyed] at ha hb
    rw [Bool.and_eq_true, beq_iff_eq, sameMembers_iff] at h ⊢
    obtain ⟨hlength, hsub⟩ := h
    refine ⟨hlength.symm, fun m hm => ?_⟩
    -- the key of the member on the right is one on the left, where the lookup found this member
    have hkey := keys_subset ha.1 hlength hsub (List.mem_map.mpr ⟨m, hm, rfl⟩)
    obtain ⟨n, hn, hkey⟩ := List.mem_map.mp hkey
    obtain ⟨c, hc, hsame⟩ := hsub n hn
    rw [hkey, lookup_of_mem hb.1 hm] at hc
    obtain rfl := Option.some.inj hc
    refine ⟨n.2, ?_, ?_⟩
    · rw [← hkey]
      exact lookup_of_mem ha.1 hn
    · exact members_same_symm as ha.2 n hn m.2 (wellKeyed_of_mem hb.2 hm) hsame

theorem sameItems_symm : ∀ as : List Value, ItemsWellKeyed as → ∀ bs : List Value,
    ItemsWellKeyed bs → sameItems as bs = true → sameItems bs as = true
  | [], _, bs, _, h => by cases bs <;> simp_all [sameItems]
  | a :: as, ha, [], _, h => by simp [sameItems] at h
  | a :: as, ha, b :: bs, hb, h => by
    rw [ItemsWellKeyed] at ha hb
    rw [sameItems, Bool.and_eq_true] at h ⊢
    exact ⟨same_symm a ha.1 b hb.1 h.1, sameItems_symm as ha.2 bs hb.2 h.2⟩

theorem members_same_symm : ∀ ms : List (String × Value), MembersWellKeyed ms →
    ∀ m ∈ ms, ∀ b : Value, b.WellKeyed → m.2.same b = true → b.same m.2 = true
  | [], _ => by simp
  | (_, v) :: ms, h => by
    rw [MembersWellKeyed] at h
    intro m hm
    rcases List.mem_cons.mp hm with rfl | hm
    · exact same_symm v h.1
    · exact members_same_symm ms h.2 m hm

end

mutual

/-- **Being the same value is transitive.** -/
theorem same_trans : ∀ a b c : Value, a.same b = true → b.same c = true → a.same c = true
  | null, b, c, hab, hbc => by cases b <;> cases c <;> simp_all [same]
  | bool x, b, c, hab, hbc => by cases b <;> cases c <;> simp_all [same]
  | string s, b, c, hab, hbc => by cases b <;> cases c <;> simp_all [same]
  | number m, b, c, hab, hbc => by
    cases b <;> simp only [same, Bool.false_eq_true] at hab
    cases c <;> simp only [same, Bool.false_eq_true] at hbc ⊢
    exact Number.same_trans hab hbc
  | array as, b, c, hab, hbc => by
    cases b <;> simp only [same, Bool.false_eq_true] at hab
    cases c <;> simp only [same, Bool.false_eq_true] at hbc ⊢
    exact sameItems_trans as _ _ hab hbc
  | object as, b, c, hab, hbc => by
    cases b <;> simp only [same, Bool.false_eq_true] at hab
    cases c <;> simp only [same, Bool.false_eq_true] at hbc ⊢
    next bs cs =>
    rw [Bool.and_eq_true, beq_iff_eq, sameMembers_iff] at hab hbc ⊢
    refine ⟨hab.1.trans hbc.1, fun m hm => ?_⟩
    obtain ⟨b, hb, hmb⟩ := hab.2 m hm
    obtain ⟨c, hc, hbc⟩ := hbc.2 _ (mem_of_lookup hb)
    exact ⟨c, hc, members_same_trans as m hm b c hmb hbc⟩

theorem sameItems_trans : ∀ as bs cs : List Value,
    sameItems as bs = true → sameItems bs cs = true → sameItems as cs = true
  | [], bs, cs, hab, hbc => by cases bs <;> cases cs <;> simp_all [sameItems]
  | a :: as, [], cs, hab, hbc => by simp [sameItems] at hab
  | a :: as, b :: bs, [], hab, hbc => by simp [sameItems] at hbc
  | a :: as, b :: bs, c :: cs, hab, hbc => by
    rw [sameItems, Bool.and_eq_true] at hab hbc ⊢
    exact ⟨same_trans a b c hab.1 hbc.1, sameItems_trans as bs cs hab.2 hbc.2⟩

theorem members_same_trans : ∀ ms : List (String × Value), ∀ m ∈ ms, ∀ b c : Value,
    m.2.same b = true → b.same c = true → m.2.same c = true
  | [] => by simp
  | (_, v) :: ms => by
    intro m hm
    rcases List.mem_cons.mp hm with rfl | hm
    · exact same_trans v
    · exact members_same_trans ms m hm

end

/-! ## Values read from texts -/

theorem mem_setMember {key : String} {v : Value} {ms : List (String × Value)}
    {m : String × Value} (h : m ∈ setMember key v ms) : m = (key, v) ∨ m ∈ ms := by
  induction ms with
  | nil => exact Or.inl (List.mem_singleton.mp h)
  | cons n ms ih =>
    obtain ⟨k, w⟩ := n
    unfold setMember at h
    split at h
    · next hk =>
      rcases List.mem_cons.mp h with rfl | h
      · exact Or.inl (by rw [hk])
      · exact Or.inr (List.mem_cons_of_mem _ h)
    · rcases List.mem_cons.mp h with rfl | h
      · exact Or.inr List.mem_cons_self
      · exact (ih h).imp_right (List.mem_cons_of_mem _)

theorem setMember_keys_nodup {key : String} {v : Value} {ms : List (String × Value)}
    (h : (ms.map Prod.fst).Nodup) : ((setMember key v ms).map Prod.fst).Nodup := by
  induction ms with
  | nil => simp [setMember]
  | cons n ms ih =>
    obtain ⟨k, w⟩ := n
    rw [List.map_cons, List.nodup_cons] at h
    unfold setMember
    split
    · exact List.nodup_cons.mpr h
    · next hk =>
      refine List.nodup_cons.mpr ⟨?_, ih h.2⟩
      rintro hmem
      obtain ⟨m, hm, rfl⟩ := List.mem_map.mp hmem
      rcases mem_setMember hm with rfl | hm
      · exact hk rfl
      · exact h.1 (List.mem_map.mpr ⟨m, hm, rfl⟩)

theorem membersWellKeyed_iff {ms : List (String × Value)} :
    MembersWellKeyed ms ↔ ∀ m ∈ ms, m.2.WellKeyed := by
  induction ms with
  | nil => simp [MembersWellKeyed]
  | cons n ms ih =>
    obtain ⟨k, v⟩ := n
    rw [MembersWellKeyed, ih, List.forall_mem_cons]

theorem setMember_wellKeyed {key : String} {v : Value} {ms : List (String × Value)}
    (hv : v.WellKeyed) (hms : (object ms).WellKeyed) :
    (object (setMember key v ms)).WellKeyed := by
  rw [WellKeyed, membersWellKeyed_iff] at hms ⊢
  refine ⟨setMember_keys_nodup hms.1, fun m hm => ?_⟩
  rcases mem_setMember hm with rfl | hm
  · exact hv
  · exact hms.2 m hm

theorem readNumber_wellKeyed {cs rest : List Char} {v : Value}
    (h : readNumber cs = some (v, rest)) : v.WellKeyed := by
  unfold readNumber at h
  simp only [Option.bind_eq_bind, Option.bind_eq_some_iff, Option.pure_def, Option.some.injEq,
    Prod.mk.injEq] at h
  obtain ⟨_, -, _, -, _, -, _, -, rfl, -⟩ := h
  trivial

theorem readScalar_wellKeyed {cs rest : List Char} {v : Value}
    (h : readScalar cs = some (v, rest)) : v.WellKeyed := by
  unfold readScalar at h
  split at h
  · obtain ⟨rfl, -⟩ := Prod.mk.inj (Option.some.inj h)
    trivial
  split at h
  · obtain ⟨rfl, -⟩ := Prod.mk.inj (Option.some.inj h)
    trivial
  split at h
  · obtain ⟨rfl, -⟩ := Prod.mk.inj (Option.some.inj h)
    trivial
  · exact readNumber_wellKeyed h

/-- What a step budget is enough for is well keyed: values, items, and the members of an object
added to members that were well keyed before. -/
structure ReadsWellKeyed (fuel : Nat) : Prop where
  value : ∀ depth cs v rest, readValue fuel depth cs = some (v, rest) → v.WellKeyed
  items : ∀ depth cs vs rest, readItems fuel depth cs = some (vs, rest) → ItemsWellKeyed vs
  members : ∀ depth before cs ms rest, readMembers fuel depth before cs = some (ms, rest) →
    (object before).WellKeyed → (object ms).WellKeyed

namespace ReadsWellKeyed

variable {fuel : Nat}

theorem readValue_succ (ih : ReadsWellKeyed fuel) {depth : Nat} {cs rest : List Char} {v : Value}
    (h : readValue (fuel + 1) depth cs = some (v, rest)) : v.WellKeyed := by
  unfold readValue at h
  split at h
  · obtain ⟨_, -, heq⟩ := Option.map_eq_some_iff.mp h
    obtain ⟨rfl, -⟩ := Prod.mk.inj heq
    trivial
  · simp at h
  · simp at h
  · split at h
    · obtain ⟨rfl, -⟩ := Prod.mk.inj (Option.some.inj h)
      trivial
    · obtain ⟨⟨vs, rest⟩, hread, heq⟩ := Option.map_eq_some_iff.mp h
      obtain ⟨rfl, -⟩ := Prod.mk.inj heq
      rw [WellKeyed]
      exact ih.items _ _ _ _ hread
  · split at h
    · obtain ⟨rfl, -⟩ := Prod.mk.inj (Option.some.inj h)
      exact ⟨List.nodup_nil, trivial⟩
    · obtain ⟨⟨ms, rest⟩, hread, heq⟩ := Option.map_eq_some_iff.mp h
      obtain ⟨rfl, -⟩ := Prod.mk.inj heq
      exact ih.members _ _ _ _ _ hread ⟨List.nodup_nil, trivial⟩
  · exact readScalar_wellKeyed h

theorem readItems_succ (ih : ReadsWellKeyed fuel) {depth : Nat} {cs rest : List Char}
    {vs : List Value} (h : readItems (fuel + 1) depth cs = some (vs, rest)) :
    ItemsWellKeyed vs := by
  unfold readItems at h
  obtain ⟨⟨v, rest'⟩, hv, h⟩ := Option.bind_eq_some_iff.mp h
  have hfirst : v.WellKeyed := ih.value _ _ _ _ hv
  simp only at h
  split at h
  · obtain ⟨⟨vs', rest''⟩, hvs, h⟩ := Option.bind_eq_some_iff.mp h
    obtain ⟨rfl, -⟩ := Prod.mk.inj (Option.some.inj h)
    exact ⟨hfirst, ih.items _ _ _ _ hvs⟩
  · obtain ⟨rfl, -⟩ := Prod.mk.inj (Option.some.inj h)
    exact ⟨hfirst, trivial⟩
  · simp at h

/-- Members are only added by `setMember`, which keeps the keys apart. -/
theorem readMembers_succ (ih : ReadsWellKeyed fuel) {depth : Nat} {cs rest : List Char}
    {before ms : List (String × Value)}
    (h : readMembers (fuel + 1) depth before cs = some (ms, rest))
    (hbefore : (object before).WellKeyed) : (object ms).WellKeyed := by
  unfold readMembers at h
  split at h
  · obtain ⟨⟨key, rest'⟩, -, h⟩ := Option.bind_eq_some_iff.mp h
    simp only at h
    split at h
    · obtain ⟨⟨v, rest''⟩, hv, h⟩ := Option.bind_eq_some_iff.mp h
      have hset : (object (setMember (String.ofList key) v before)).WellKeyed :=
        setMember_wellKeyed (ih.value _ _ _ _ hv) hbefore
      simp only at h
      split at h
      · exact ih.members _ _ _ _ _ h hset
      · obtain ⟨rfl, -⟩ := Prod.mk.inj (Option.some.inj h)
        exact hset
      · simp at h
    · simp at h
  · simp at h

end ReadsWellKeyed

/-- The three readers call each other with less fuel. -/
theorem readsWellKeyed (fuel : Nat) : ReadsWellKeyed fuel := by
  induction fuel with
  | zero =>
    constructor
    · intro depth cs v rest h
      simp [readValue] at h
    · intro depth cs vs rest h
      simp [readItems] at h
    · intro depth before cs ms rest h
      simp [readMembers] at h
  | succ fuel ih =>
    constructor
    · exact fun _ _ _ _ => ih.readValue_succ
    · exact fun _ _ _ _ => ih.readItems_succ
    · exact fun _ _ _ _ _ => ih.readMembers_succ

/-- **A value that was read from a text is well keyed.** A member that comes twice is kept once. -/
theorem ofText?_wellKeyed {depth : Nat} {t : String} {v : Value} (h : ofText? depth t = some v) :
    v.WellKeyed := by
  unfold ofText? at h
  simp only at h
  split at h
  · next hread =>
    split at h
    · obtain rfl := Option.some.inj h
      exact (readsWellKeyed _).value _ _ _ _ hread
    · simp at h
  · simp at h

end Value

end Sql
