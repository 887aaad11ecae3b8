import HtnPlanner.Ground.Binder
import HtnPlanner.Proofs.Expr.Clauses
import HtnPlanner.Proofs.Expr.Literals
import HtnPlanner.Proofs.Ground.FactTable

/-!
The binder finds bindings of the right types only, and it misses none under which the precondition is
true.
-/

namespace HtnPlanner

/-- The complete binding has the values of the partial one. -/
structure Completes (b : List Nat) (binding : List (Option Nat)) : Prop where
  length : b.length = binding.length
  values : ∀ (i : Nat) (c : Nat), binding[i]? = some (some c) → b[i]? = some c

variable {b : List Nat} {binding : List (Option Nat)} {S : Set Fact}

theorem Completes.set (h : Completes b binding) {slot c : Nat} (hc : b[slot]? = some c) :
    Completes b (binding.set slot (some c)) := by
  refine ⟨by rw [h.length, List.length_set], fun i d hi => ?_⟩
  by_cases hslot : slot = i
  · subst hslot
    rw [List.getElem?_set_self' ] at hi
    obtain ⟨_, -, hd⟩ := Option.map_eq_some_iff.mp hi
    rw [hc]
    simpa using hd
  · rw [List.getElem?_set_ne hslot] at hi
    exact h.values i d hi

theorem Completes.of_set {slot c : Nat} (h : Completes b (binding.set slot (some c)))
    (hunbound : binding[slot]?.join = none) : Completes b binding := by
  refine ⟨by rw [h.length, List.length_set], fun i d hi => ?_⟩
  by_cases hslot : slot = i
  · subst hslot
    simp [hi] at hunbound
  · exact h.values i d (by rwa [List.getElem?_set_ne hslot])

theorem Completes.subst_eq (h : Completes b binding) {x : Arg} {c : Nat} (hx : x.resolve binding = some c) :
    x.subst b = .const c := by
  cases x with
  | const d =>
      obtain rfl : d = c := by simpa [Arg.resolve] using hx
      rfl
  | slot i =>
      have hi : binding[i]? = some (some c) := by simpa [Arg.resolve, Option.join_eq_some_iff] using hx
      simp [Arg.subst, h.values i c hi]

/-! ### Checks -/

def Test.toExpr : Test → Expr
  | atom a => .atom a
  | equal x y => .equal x y

theorem Expr.test?_eq_some {e : Expr} {t : Test} (h : e.test? = some t) : e = t.toExpr := by
  cases e with
  | atom a | equal x y =>
      obtain rfl := Option.some.inj h
      rfl
  | _ => exact absurd h (by simp [Expr.test?])

theorem Expr.check?_eq_some {e : Expr} {c : Check} (h : e.check? = some c) :
    e = if c.positive then c.test.toExpr else .neg c.test.toExpr := by
  cases e with
  | neg e =>
      obtain ⟨t, ht, rfl⟩ := Option.map_eq_some_iff.mp h
      simp [Expr.test?_eq_some ht]
  | atom a | equal x y =>
      obtain rfl := Option.some.inj h
      rfl
  | _ => exact absurd h (by simp [Expr.check?, Expr.test?])

theorem Completes.fact?_subst (h : Completes b binding) {a : Atom} {cs : List Nat}
    (hcs : a.args.mapM (Arg.resolve binding) = some cs) : (a.subst b).fact? = some ⟨a.predicate, cs⟩ := by
  have hargs : a.args.map (Arg.subst b) = cs.map .const := by
    generalize a.args = xs at hcs
    induction xs generalizing cs with
    | nil =>
        obtain rfl : [] = cs := by simpa using hcs
        rfl
    | cons x xs ih =>
        simp only [List.mapM_cons, Option.pure_def, Option.bind_eq_bind, Option.bind_eq_some_iff,
          Option.some.injEq] at hcs
        obtain ⟨c, hc, ds, hds, rfl⟩ := hcs
        rw [List.map_cons, List.map_cons, h.subst_eq hc, ih hds]
  rw [Atom.fact?, Atom.subst, hargs, mapM_const?_map_const]
  rfl

/-- A value that is settled under a partial binding is the one under every binding that completes it. -/
theorem Test.holds_iff_of_value {fixed : Fact → Option Bool} (hfixed : Expr.Agrees fixed S)
    (h : Completes b binding) {t : Test} {v : Bool} (hv : t.value fixed binding = some v) :
    t.toExpr.Holds b S ↔ v = true := by
  cases t with
  | atom a =>
      obtain ⟨cs, hcs, hv⟩ := Option.bind_eq_some_iff.mp hv
      rw [toExpr, Expr.Holds, h.fact?_subst hcs]
      simpa using hfixed _ v hv
  | equal x y =>
      simp only [value, Option.bind_eq_bind, Option.bind_eq_some_iff, Option.pure_def, Option.some.injEq] at hv
      obtain ⟨c, hc, d, hd, rfl⟩ := hv
      rw [toExpr, Expr.Holds, h.subst_eq hc, h.subst_eq hd]
      simp

theorem Check.isConsistent_of_holds {fixed : Fact → Option Bool} (hfixed : Expr.Agrees fixed S)
    (h : Completes b binding) {c : Check} {e : Expr} (he : e.check? = some c) (hholds : e.Holds b S) :
    c.isConsistent fixed binding = true := by
  rw [Check.isConsistent, Option.all_eq_true]
  intro v hv
  have hvalue := Test.holds_iff_of_value hfixed h hv
  rw [Expr.check?_eq_some he] at hholds
  cases hp : c.positive with
  | true =>
      rw [hp, if_pos rfl] at hholds
      simpa using hvalue.mp hholds
  | false =>
      rw [hp, if_neg (by simp), Expr.holds_neg, hvalue] at hholds
      simpa using hholds

namespace Binder

variable {bd : Binder} {checks : List Check} {todo : List (Nat × Nat)}

/-- What the binder takes for granted about the facts that are true. -/
structure Covers (bd : Binder) (S : Set Fact) : Prop where
  fixed : Expr.Agrees bd.fixed S
  indexed : ∀ i, (bd.table i).Indexed
  closed : ∀ f ∈ S, bd.closed f.predicate = true → f.args ∈ (bd.table f.predicate).facts

theorem common?_eq_some {args places : List Nat} {v : Nat} (hne : places ≠ [])
    (h : ∀ i ∈ places, args[i]? = some v) : common? args places = some v := by
  cases places with
  | nil => exact absurd rfl hne
  | cons p ps =>
      rw [common?, h p List.mem_cons_self, Option.filter_some, if_pos]
      rw [List.all_eq_true]
      intro i hi
      rw [h i (List.mem_cons_of_mem p hi)]
      exact beq_self_eq_true _

theorem occurring?_eq_some {slot : Nat} {c : Check} {cs : List Nat} (h : bd.occurring? slot binding c = some cs) :
    ∃ a, c = ⟨true, .atom a⟩ ∧ bd.closed a.predicate = true ∧ positions (· == .slot slot) a.args ≠ [] ∧
      cs = ((bd.table a.predicate).matching (a.args.map (Arg.resolve binding))).filterMap
        (common? · (positions (· == .slot slot) a.args)) := by
  unfold occurring? at h
  split at h
  · next a =>
      simp only [Option.ite_none_left_eq_some, Option.some.injEq, Bool.or_eq_true, not_or,
        Bool.not_eq_true', Bool.not_eq_false, List.isEmpty_iff] at h
      obtain ⟨⟨hplaces, hclosed⟩, rfl⟩ := h
      exact ⟨a, rfl, hclosed, hplaces, rfl⟩
  · exact absurd h (by simp)

/-- A fact of the table that is an instance of the atom agrees with the partial binding, and it has the value
of the slot wherever the atom has the slot. -/
theorem mem_of_occurring? (hindexed : ∀ i, (bd.table i).Indexed) (hb : Completes b binding) {a : Atom} {f : Fact}
    (hfact : (a.subst b).fact? = some f) (hf : f.args ∈ (bd.table a.predicate).facts)
    (harity : a.args.length ≤ (bd.table a.predicate).arity) {slot v : Nat} (hv : b[slot]? = some v) {cs : List Nat}
    (hcs : bd.occurring? slot binding ⟨true, .atom a⟩ = some cs) : v ∈ cs := by
  obtain ⟨_, heq, -, hplaces, rfl⟩ := occurring?_eq_some hcs
  obtain rfl := Test.atom.inj (Check.mk.inj heq).2
  have hargs : a.args.map (Arg.subst b) = f.args.map .const := congrArg Atom.args (Atom.eq_ofFact hfact)
  have hlength : a.args.length = f.args.length := by simpa using congrArg List.length hargs
  have harg : ∀ (i : Nat) (x : Arg) (d : Nat), a.args[i]? = some x → f.args[i]? = some d →
      x.subst b = .const d := by
    intro i x d hx hd
    have hi := congrArg (·[i]?) hargs
    simpa [hx, hd] using hi
  have hfits : FactTable.fits (a.args.map (Arg.resolve binding)) f.args = true := by
    apply List.all_eq_true.mpr
    intro p hp
    obtain ⟨i, hi⟩ := List.mem_iff_getElem?.mp hp
    obtain ⟨hx, hd⟩ := List.getElem?_zip_eq_some.mp hi
    rw [List.getElem?_map] at hx
    obtain ⟨x, hx, hresolve⟩ := Option.map_eq_some_iff.mp hx
    rw [Option.all_eq_true]
    intro d hp
    have hsubst := (hb.subst_eq (hresolve.trans hp)).symm.trans (harg i x _ hx hd)
    exact beq_iff_eq.mpr (Arg.const.inj hsubst)
  have hmem := (hindexed a.predicate).mem_matching (by simpa using harity) (by simpa using hlength) hf hfits
  refine List.mem_filterMap.mpr ⟨f.args, hmem, common?_eq_some hplaces fun i hi => ?_⟩
  obtain ⟨x, hx, hslot⟩ := mem_positions.mp hi
  obtain rfl : x = .slot slot := by simpa using hslot
  have hi : i < f.args.length := by
    rw [← hlength]
    exact (List.getElem?_eq_some_iff.mp hx).1
  have hd := List.getElem?_eq_getElem hi
  have hsubst := harg i _ _ hx hd
  rw [Arg.subst, hv] at hsubst
  rw [hd, ← Arg.const.inj hsubst]

/-- A true atom of a closed predicate is an initial fact. -/
theorem Covers.mem_of_occurring? (h : bd.Covers S) (hb : Completes b binding) {slot v : Nat} {c : Check}
    {e : Expr} (he : e.check? = some c) (hholds : e.Holds b S)
    (harity : ∀ a, e = .atom a → a.args.length ≤ (bd.table a.predicate).arity)
    (hv : b[slot]? = some v) {cs : List Nat} (hcs : bd.occurring? slot binding c = some cs) : v ∈ cs := by
  obtain ⟨a, rfl, hclosed, -, -⟩ := occurring?_eq_some hcs
  obtain rfl : e = .atom a := Expr.check?_eq_some he
  obtain ⟨f, hf, hfact⟩ := hholds
  have hpredicate : f.predicate = a.predicate := by
    obtain ⟨cs, -, rfl⟩ := Option.map_eq_some_iff.mp hfact
    rfl
  have hmem : f.args ∈ (bd.table a.predicate).facts := by
    rw [← hpredicate]
    exact h.closed f hf (by rwa [hpredicate])
  exact Binder.mem_of_occurring? h.indexed hb hfact hmem (harity a rfl) hv hcs

/-! ### Extending a binding -/

theorem filterMap_id_of_bound (hbound : ∀ i < binding.length, binding[i]?.join ≠ none) :
    Completes (binding.filterMap id) binding := by
  induction binding with
  | nil => exact ⟨rfl, fun i c h => by simp at h⟩
  | cons v binding ih =>
      have hrest := ih fun i hi => by simpa using hbound (i + 1) (by simpa using hi)
      cases v with
      | none => exact absurd (by simp) (hbound 0 (by simp))
      | some c =>
          refine ⟨congrArg (· + 1) hrest.length, fun i d hi => ?_⟩
          cases i with
          | zero => simpa using hi
          | succ i => simpa using hrest.values i d (by simpa using hi)

theorem eq_filterMap_id (h : Completes b binding)
    (hbound : ∀ i < binding.length, binding[i]?.join ≠ none) : binding.filterMap id = b := by
  have hother := filterMap_id_of_bound hbound
  apply List.ext_getElem?
  intro i
  by_cases hi : i < binding.length
  · cases hv : binding[i]?.join with
    | none => exact absurd hv (hbound i hi)
    | some c =>
        have hc := Option.join_eq_some_iff.mp hv
        rw [hother.values i c hc, h.values i c hc]
  · rw [List.getElem?_eq_none (by rw [hother.length]; omega), List.getElem?_eq_none (by rw [h.length]; omega)]

/-- The slots that are unbound are on the list, each once and within the binding. -/
structure Pending (todo : List (Nat × Nat)) (binding : List (Option Nat)) : Prop where
  slots : ∀ p ∈ todo, p.2 < binding.length
  nodup : (todo.map (·.2)).Nodup
  unbound : ∀ i < binding.length, binding[i]?.join = none → ∃ p ∈ todo, p.2 = i

theorem Pending.of_bound {type slot c : Nat} (h : Pending ((type, slot) :: todo) binding)
    (hc : binding[slot]?.join = some c) : Pending todo binding := by
  refine ⟨fun p hp => h.slots p (List.mem_cons_of_mem _ hp), (List.nodup_cons.mp h.nodup).2, fun i hi hn => ?_⟩
  obtain ⟨p, hp, rfl⟩ := h.unbound i hi hn
  rcases List.mem_cons.mp hp with rfl | hp
  · exact absurd (hc.symm.trans hn) (by simp)
  · exact ⟨p, hp, rfl⟩

theorem Pending.set {type slot : Nat} (h : Pending ((type, slot) :: todo) binding) (c : Nat) :
    Pending todo (binding.set slot (some c)) := by
  refine ⟨fun p hp => ?_, (List.nodup_cons.mp h.nodup).2, fun i hi hn => ?_⟩
  · rw [List.length_set]
    exact h.slots p (List.mem_cons_of_mem _ hp)
  · rw [List.length_set] at hi
    by_cases hslot : slot = i
    · subst hslot
      simp [hi] at hn
    · rw [List.getElem?_set_ne hslot] at hn
      obtain ⟨p, hp, rfl⟩ := h.unbound i hi hn
      rcases List.mem_cons.mp hp with rfl | hp
      · exact absurd rfl hslot
      · exact ⟨p, hp, rfl⟩

/-- The values that a binding has for the slots that were unbound are of their types. -/
def Typed (domain : Nat → List Nat) (todo : List (Nat × Nat)) (binding : List (Option Nat)) (b : List Nat) : Prop :=
  ∀ p ∈ todo, binding[p.2]?.join = none → ∃ c ∈ domain p.1, b[p.2]? = some c

theorem typed_cons {type slot c : Nat} (h : Pending ((type, slot) :: todo) binding)
    (hn : binding[slot]?.join = none) (hc : b[slot]? = some c) :
    Typed bd.domain ((type, slot) :: todo) binding b ↔
      c ∈ bd.domain type ∧ Typed bd.domain todo (binding.set slot (some c)) b := by
  have hother : ∀ p ∈ todo, (binding.set slot (some c))[p.2]?.join = binding[p.2]?.join := by
    intro p hp
    have hne : slot ≠ p.2 := by
      rintro rfl
      exact (List.nodup_cons.mp h.nodup).1 (List.mem_map.mpr ⟨p, hp, rfl⟩)
    rw [List.getElem?_set_ne hne]
  rw [Typed]
  rw [List.forall_mem_cons]
  refine and_congr ⟨fun hd => ?_, fun hd _ => ⟨c, hd, hc⟩⟩ ?_
  · obtain ⟨d, hd, hbd⟩ := hd hn
    rwa [Option.some.inj (hc.symm.trans hbd)]
  · exact forall₂_congr fun p hp => by rw [hother p hp]

theorem of_mem_extend (hp : Pending todo binding) (h : b ∈ bd.extend checks todo binding) :
    Completes b binding ∧ Typed bd.domain todo binding b := by
  induction todo generalizing binding with
  | nil =>
      obtain rfl := List.mem_singleton.mp h
      refine ⟨filterMap_id_of_bound fun i hi hn => ?_, by simp [Typed]⟩
      obtain ⟨p, hp, -⟩ := hp.unbound i hi hn
      exact absurd hp List.not_mem_nil
  | cons p todo ih =>
      obtain ⟨type, slot⟩ := p
      rw [extend] at h
      cases hs : binding[slot]?.join with
      | some c =>
          rw [hs] at h
          obtain ⟨hcompletes, htyped⟩ := ih (hp.of_bound hs) h
          refine ⟨hcompletes, List.forall_mem_cons.mpr ⟨fun hn => ?_, htyped⟩⟩
          exact absurd (hs.symm.trans hn) (by simp)
      | none =>
          simp only [hs, List.mem_flatMap] at h
          obtain ⟨c, hc, h⟩ := h
          split at h
          · obtain ⟨hcompletes, htyped⟩ := ih (hp.set c) h
            have hslot : b[slot]? = some c := by
              apply hcompletes.values slot c
              rw [List.getElem?_set_self (hp.slots _ List.mem_cons_self)]
            exact ⟨hcompletes.of_set hs, (typed_cons hp hs hslot).mpr ⟨(List.mem_filter.mp hc).1, htyped⟩⟩
          · exact absurd h List.not_mem_nil

/-- A binding of the right types is found if no check contradicts it or leaves one of its values out. -/
theorem mem_extend (hp : Pending todo binding) (hb : Completes b binding) (ht : Typed bd.domain todo binding b)
    (hconsistent : ∀ binding, Completes b binding → bd.isConsistent checks binding = true)
    (hoccurring : ∀ binding slot v cs, Completes b binding → b[slot]? = some v →
      ∀ c ∈ checks, bd.occurring? slot binding c = some cs → v ∈ cs) :
    b ∈ bd.extend checks todo binding := by
  induction todo generalizing binding with
  | nil =>
      rw [extend, List.mem_singleton, eq_comm]
      apply eq_filterMap_id hb
      intro i hi hn
      obtain ⟨p, hp, -⟩ := hp.unbound i hi hn
      exact absurd hp List.not_mem_nil
  | cons p todo ih =>
      obtain ⟨type, slot⟩ := p
      rw [extend]
      cases hs : binding[slot]?.join with
      | some c => exact ih (hp.of_bound hs) hb fun p hp => ht p (List.mem_cons_of_mem _ hp)
      | none =>
          obtain ⟨c, hc, hslot⟩ := ht _ List.mem_cons_self hs
          have hset := hb.set hslot
          refine List.mem_flatMap.mpr ⟨c, ?_, ?_⟩
          · refine List.mem_filter.mpr ⟨hc, List.all_eq_true.mpr fun cs hcs => ?_⟩
            obtain ⟨check, hcheck, hcs⟩ := List.mem_filterMap.mp hcs
            simpa using hoccurring binding slot c cs hb hslot check hcheck hcs
          · rw [if_pos (hconsistent _ hset)]
            exact ih (hp.set c) hset ((typed_cons hp hs hslot).mp ht).2

theorem pending_zipIdx {parameters : List Nat} (h : binding.length = parameters.length) :
    Pending parameters.zipIdx binding := by
  refine ⟨fun p hp => ?_, ?_, fun i hi _ => ?_⟩
  · have hget := List.mem_zipIdx_iff_getElem?.mp hp
    rw [h]
    exact (List.getElem?_eq_some_iff.mp hget).1
  · rw [List.zipIdx_map_snd]
    exact List.nodup_range'
  · rw [h] at hi
    exact ⟨(parameters[i], i), List.mem_zipIdx_iff_getElem?.mpr (List.getElem?_eq_getElem hi), rfl⟩

/-- A complete binding that extends a partial one. -/
structure Binds (domain : Nat → List Nat) (parameters : List Nat) (binding : List (Option Nat)) (b : List Nat) :
    Prop extends Completes b binding where
  typed : Typed domain parameters.zipIdx binding b

theorem binds_of_mem_bindings {parameters : List Nat} {pre : Expr} (h : binding.length = parameters.length)
    (hb : b ∈ bd.bindings parameters pre binding) : Binds bd.domain parameters binding b := by
  simp only [bindings] at hb
  split at hb
  · obtain ⟨hcompletes, htyped⟩ := of_mem_extend (pending_zipIdx h) hb
    exact ⟨hcompletes, htyped⟩
  · exact absurd hb List.not_mem_nil

/-- No binding under which the precondition is true is missed. -/
theorem Covers.mem_bindings (hS : bd.Covers S) {parameters : List Nat} {pre : Expr} {E : Arg → Arg → Prop}
    (harity : pre.Over (fun a => a.args.length ≤ (bd.table a.predicate).arity) E)
    (hlength : binding.length = parameters.length) (hb : Binds bd.domain parameters binding b)
    (hholds : pre.Holds b S) : b ∈ bd.bindings parameters pre binding := by
  have hcheck : ∀ c ∈ pre.conjuncts.filterMap Expr.check?, ∃ e ∈ pre.conjuncts, e.check? = some c :=
    fun c hc => List.mem_filterMap.mp hc
  have hconjunct : ∀ e ∈ pre.conjuncts, e.Holds b S := (Expr.holds_iff_conjuncts pre).mp hholds
  have hconsistent : ∀ binding, Completes b binding →
      bd.isConsistent (pre.conjuncts.filterMap Expr.check?) binding = true := by
    intro binding hcompletes
    apply List.all_eq_true.mpr
    intro c hc
    obtain ⟨e, he, hec⟩ := hcheck c hc
    exact Check.isConsistent_of_holds hS.fixed hcompletes hec (hconjunct e he)
  rw [bindings, if_pos (hconsistent binding hb.toCompletes)]
  apply mem_extend (pending_zipIdx hlength) hb.toCompletes hb.typed hconsistent
  intro binding slot v cs hcompletes hv c hc hcs
  obtain ⟨e, he, hec⟩ := hcheck c hc
  refine hS.mem_of_occurring? hcompletes hec (hconjunct e he) ?_ hv hcs
  rintro a rfl
  exact harity.conjuncts _ he

end Binder

end HtnPlanner
