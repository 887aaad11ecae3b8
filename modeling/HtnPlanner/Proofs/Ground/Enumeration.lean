import HtnPlanner.Proofs.Ground.Binder
import Mathlib.Data.List.Lex

/-!
The binder gives up a partial binding only if no binding that completes it is consistent. So it finds what
is left of all type-correct bindings, in lexicographic order, when those that contradict a check are left out.
-/

namespace HtnPlanner

variable {b : List Nat} {binding : List (Option Nat)} {fixed : Fact → Option Bool}

/-! ### Complete bindings -/

theorem Completes.resolve (h : Completes b binding) {x : Arg} {c : Nat} (hx : x.resolve binding = some c) :
    x.resolve (b.map some) = some c := by
  cases x with
  | const d => exact hx
  | slot i =>
      have hi : binding[i]? = some (some c) := by simpa [Arg.resolve, Option.join_eq_some_iff] using hx
      simp [Arg.resolve, h.values i c hi]

theorem Completes.mapM_resolve (h : Completes b binding) {xs : List Arg} {cs : List Nat}
    (hxs : xs.mapM (Arg.resolve binding) = some cs) : xs.mapM (Arg.resolve (b.map some)) = some cs := by
  induction xs generalizing cs with
  | nil => exact hxs
  | cons x xs ih =>
      simp only [List.mapM_cons, Option.pure_def, Option.bind_eq_bind, Option.bind_eq_some_iff,
        Option.some.injEq] at hxs ⊢
      obtain ⟨c, hc, ds, hds, rfl⟩ := hxs
      exact ⟨c, h.resolve hc, ds, ih hds, rfl⟩

theorem Completes.value_eq (h : Completes b binding) {t : Test} {v : Bool} (ht : t.value fixed binding = some v) :
    t.value fixed (b.map some) = some v := by
  cases t with
  | atom a =>
      obtain ⟨cs, hcs, hv⟩ := Option.bind_eq_some_iff.mp ht
      exact Option.bind_eq_some_iff.mpr ⟨cs, h.mapM_resolve hcs, hv⟩
  | equal x y =>
      simp only [Test.value, Option.bind_eq_bind, Option.bind_eq_some_iff, Option.pure_def] at ht ⊢
      obtain ⟨c, hc, d, hd, hv⟩ := ht
      exact ⟨c, h.resolve hc, d, h.resolve hd, hv⟩

theorem completes_map_some (b : List Nat) : Completes b (b.map some) := by
  refine ⟨(List.length_map _).symm, fun i c hi => ?_⟩
  rw [List.getElem?_map] at hi
  obtain ⟨d, hd, hdc⟩ := Option.map_eq_some_iff.mp hi
  rw [hd, hdc]

theorem Arg.exists_resolve {x : Arg} (h : ∀ i, x = .slot i → i < b.length) : ∃ c, x.resolve (b.map some) = some c := by
  cases x with
  | const c => exact ⟨c, rfl⟩
  | slot i => exact ⟨b.get ⟨i, h i rfl⟩, by simp [resolve, h i rfl]⟩

/-! ### Contradictions -/

theorem Test.assign_subst {t : Test} {v : Bool} (h : t.value fixed (b.map some) = some v) :
    (t.toExpr.subst b).assign fixed = if v then .top else .bottom := by
  cases t with
  | atom a =>
      obtain ⟨cs, hcs, hv⟩ := Option.bind_eq_some_iff.mp h
      have hsettle : Expr.settleAtom fixed (a.subst b) = if v then .top else .bottom := by
        rw [Expr.settleAtom, (completes_map_some b).fact?_subst hcs, Option.bind_some, hv]
        cases v <;> rfl
      rw [toExpr, Expr.subst, Expr.assign, Expr.settle, hsettle]
      cases v <;> rfl
  | equal x y =>
      simp only [value, Option.bind_eq_bind, Option.bind_eq_some_iff, Option.pure_def, Option.some.injEq] at h
      obtain ⟨c, hc, d, hd, rfl⟩ := h
      rw [toExpr, Expr.subst, (completes_map_some b).subst_eq hc, (completes_map_some b).subst_eq hd]
      by_cases heq : c = d <;> simp [Expr.assign, Expr.settle, Expr.simplify, Expr.equate, heq]

theorem Expr.assign_of_conjunct {e l : Expr} (hl : l ∈ e.conjuncts) (h : l.assign fixed = .bottom) :
    e.assign fixed = .bottom := by
  cases e with
  | top => exact absurd hl List.not_mem_nil
  | conj es =>
      have hmem : Expr.bottom ∈ (es.map (settle fixed)).map simplify :=
        List.mem_map.mpr ⟨l.settle fixed, List.mem_map_of_mem hl, h⟩
      rw [assign, settle, simplify, settleAll_eq_map, simplifyAll_eq_map, conjoin, if_pos hmem]
  | _ =>
      obtain rfl := List.mem_singleton.mp hl
      exact h

/-- An instance that contradicts a check is false. -/
theorem Expr.assign_subst_of_inconsistent {e : Expr} {c : Check} (hc : c ∈ e.conjuncts.filterMap check?)
    (h : c.isConsistent fixed (b.map some) = false) : (e.subst b).assign fixed = .bottom := by
  obtain ⟨l, hl, hlc⟩ := List.mem_filterMap.mp hc
  have hmem : l.subst b ∈ (e.subst b).conjuncts := by
    rw [conjuncts_subst]
    exact List.mem_map_of_mem hl
  refine assign_of_conjunct hmem ?_
  obtain ⟨v, hv, hne⟩ : ∃ v, c.test.value fixed (b.map some) = some v ∧ v ≠ c.positive := by
    rw [Check.isConsistent] at h
    cases hv : c.test.value fixed (b.map some) with
    | none => simp [hv] at h
    | some v => exact ⟨v, rfl, by simpa [hv] using h⟩
  have hassign := Test.assign_subst hv
  rw [check?_eq_some hlc]
  cases hp : c.positive with
  | true =>
      obtain rfl : v = false := by simpa [hp] using hne
      exact hassign
  | false =>
      obtain rfl : v = true := by simpa [hp] using hne
      show negate ((c.test.toExpr.subst b).assign fixed) = .bottom
      rw [hassign]
      rfl

namespace Binder

variable {bd : Binder} {checks : List Check} {todo : List (Nat × Nat)}

theorem isConsistent_of_assign {e : Expr} (h : (e.subst b).assign bd.fixed ≠ .bottom) :
    bd.isConsistent (e.conjuncts.filterMap Expr.check?) (b.map some) = true := by
  refine List.all_eq_true.mpr fun c hc => ?_
  by_contra hcheck
  exact h (Expr.assign_subst_of_inconsistent hc (Bool.eq_false_iff.mpr hcheck))

/-- A contradiction stays one, however the binding is completed. -/
theorem isConsistent_of_completes (h : Completes b binding) (hb : bd.isConsistent checks (b.map some) = true) :
    bd.isConsistent checks binding = true := by
  refine List.all_eq_true.mpr fun c hc => ?_
  have hcheck := List.all_eq_true.mp hb c hc
  rw [Check.isConsistent, Option.all_eq_true] at hcheck ⊢
  exact fun v hv => hcheck v (h.value_eq hv)

theorem extend_nil_cons {type slot : Nat} (hs : binding[slot]?.join = none) :
    bd.extend [] ((type, slot) :: todo) binding =
      (bd.domain type).flatMap fun c => bd.extend [] todo (binding.set slot (some c)) := by
  rw [extend]
  simp [hs, candidates, isConsistent]

/-- What the checks are about: atoms over the `n` slots, with as many arguments as the tables have positions.
A fact that is not in the table of a closed predicate is known to be false. -/
structure Decides (bd : Binder) (checks : List Check) (n : Nat) : Prop where
  indexed : ∀ i, (bd.table i).Indexed
  closed : ∀ f, bd.closed f.predicate = true → f.args ∉ (bd.table f.predicate).facts → bd.fixed f = some false
  arity : ∀ a, ⟨true, .atom a⟩ ∈ checks → a.args.length ≤ (bd.table a.predicate).arity
  slots : ∀ a, ⟨true, .atom a⟩ ∈ checks → ∀ i, .slot i ∈ a.args → i < n

variable {n : Nat}

theorem exists_fact_of_slots {a : Atom} (h : ∀ i, .slot i ∈ a.args → i < b.length) :
    ∃ cs, a.args.mapM (Arg.resolve (b.map some)) = some cs :=
  exists_mapM_eq_some fun _ hx => Arg.exists_resolve fun i hi => h i (hi ▸ hx)

/-- No check leaves a value out that a consistent binding has. -/
theorem Decides.mem_of_occurring? (h : bd.Decides checks n) (hlength : b.length = n) (hb : Completes b binding)
    (hconsistent : bd.isConsistent checks (b.map some) = true) {slot v : Nat} (hv : b[slot]? = some v) {c : Check}
    (hc : c ∈ checks) {cs : List Nat} (hcs : bd.occurring? slot binding c = some cs) : v ∈ cs := by
  obtain ⟨a, rfl, hclosed, -, -⟩ := occurring?_eq_some hcs
  obtain ⟨args, hargs⟩ := exists_fact_of_slots (b := b) fun i hi => hlength ▸ h.slots a hc i hi
  have hfact := (completes_map_some b).fact?_subst hargs
  have hmem : args ∈ (bd.table a.predicate).facts := by
    by_contra hmem
    have hfalse : (Test.atom a).value bd.fixed (b.map some) = some false :=
      Option.bind_eq_some_iff.mpr ⟨args, hargs, h.closed ⟨a.predicate, args⟩ hclosed hmem⟩
    have hcheck := List.all_eq_true.mp hconsistent _ hc
    simp [Check.isConsistent, hfalse] at hcheck
  exact Binder.mem_of_occurring? h.indexed hb hfact hmem (h.arity a hc) hv hcs

theorem flatMap_filter_eq {l : List Nat} {keep : Nat → Bool} {f g : Nat → List (List Nat)}
    (hkept : ∀ c ∈ l, keep c = true → f c = g c) (hleft : ∀ c ∈ l, keep c = false → g c = []) :
    (l.filter keep).flatMap f = l.flatMap g := by
  induction l with
  | nil => rfl
  | cons c l ih =>
      have hrest := ih (fun d hd => hkept d (List.mem_cons_of_mem c hd)) fun d hd => hleft d (List.mem_cons_of_mem c hd)
      cases hc : keep c with
      | true =>
          rw [List.filter_cons_of_pos hc, List.flatMap_cons, List.flatMap_cons, hrest, hkept c List.mem_cons_self hc]
      | false =>
          rw [List.filter_cons_of_neg (by simp [hc]), List.flatMap_cons, hrest, hleft c List.mem_cons_self hc,
            List.nil_append]

theorem Decides.extend_eq_filter (h : bd.Decides checks n) (hlength : binding.length = n)
    (hp : Pending todo binding) (hconsistent : bd.isConsistent checks binding = true) :
    bd.extend checks todo binding =
      (bd.extend [] todo binding).filter fun b => bd.isConsistent checks (b.map some) := by
  induction todo generalizing binding with
  | nil =>
      have hbound : ∀ i < binding.length, binding[i]?.join ≠ none := by
        intro i hi hn
        obtain ⟨p, hp, -⟩ := hp.unbound i hi hn
        exact absurd hp List.not_mem_nil
      have hcompletes := filterMap_id_of_bound hbound
      have hmap : (binding.filterMap id).map some = binding := by
        apply List.ext_getElem (by rw [List.length_map, hcompletes.length])
        intro i hi hi'
        obtain ⟨c, hc⟩ := Option.ne_none_iff_exists'.mp (hbound i hi')
        have hvalue := Option.join_eq_some_iff.mp hc
        obtain ⟨_, hget⟩ := List.getElem?_eq_some_iff.mp (hcompletes.values i c hvalue)
        rw [List.getElem?_eq_getElem hi'] at hvalue
        rw [Option.some.inj hvalue, List.getElem_map, hget]
      rw [extend, extend, List.filter_singleton, hmap, hconsistent]
      rfl
  | cons q todo ih =>
      obtain ⟨type, slot⟩ := q
      cases hs : binding[slot]?.join with
      | some c =>
          rw [extend, extend, hs]
          exact ih hlength (hp.of_bound hs) hconsistent
      | none =>
          rw [extend_nil_cons hs, List.filter_flatMap, extend, hs]
          have hcompletes : ∀ c, ∀ b ∈ bd.extend [] todo (binding.set slot (some c)),
              Completes b (binding.set slot (some c)) := fun c b hb => (of_mem_extend (hp.set c) hb).1
          refine flatMap_filter_eq (fun c _ _ => ?_) fun c _ hleft => ?_
          · by_cases hc : bd.isConsistent checks (binding.set slot (some c)) = true
            · simp only [if_pos hc]
              exact ih (by rw [List.length_set, hlength]) (hp.set c) hc
            · simp only [if_neg hc]
              refine (List.filter_eq_nil_iff.mpr fun b hb hall => hc ?_).symm
              exact isConsistent_of_completes (hcompletes c b hb) hall
          · refine List.filter_eq_nil_iff.mpr fun b hb hall => ?_
            have hb := hcompletes c b hb
            have hslot : b[slot]? = some c := by
              apply hb.values slot c
              rw [List.getElem?_set_self (hp.slots _ List.mem_cons_self)]
            have hset := hb.of_set hs
            have hlength := hset.length.trans hlength
            have hmem : ∀ cs ∈ checks.filterMap (bd.occurring? slot binding), cs.contains c = true := by
              intro cs hcs
              obtain ⟨check, hcheck, hcs⟩ := List.mem_filterMap.mp hcs
              exact List.contains_iff_mem.mpr (h.mem_of_occurring? hlength hset hall hslot hcheck hcs)
            rw [List.all_eq_true.mpr hmem] at hleft
            exact Bool.false_ne_true hleft.symm

/-- The bindings that are found: all of the right types that contradict no check, in their order. -/
theorem bindings_eq_filter {parameters : List Nat} {pre : Expr}
    (h : bd.Decides (pre.conjuncts.filterMap Expr.check?) parameters.length)
    (hlength : binding.length = parameters.length) :
    bd.bindings parameters pre binding = (bd.extend [] parameters.zipIdx binding).filter fun b =>
      bd.isConsistent (pre.conjuncts.filterMap Expr.check?) (b.map some) := by
  have hp := pending_zipIdx hlength
  rw [bindings]
  split
  · next hconsistent => exact h.extend_eq_filter hlength hp hconsistent
  · next hconsistent =>
      refine (List.filter_eq_nil_iff.mpr fun b hb hall => hconsistent ?_).symm
      exact isConsistent_of_completes (of_mem_extend hp hb).1 hall

theorem mem_extend_nil_iff (hp : Pending todo binding) :
    b ∈ bd.extend [] todo binding ↔ Completes b binding ∧ Typed bd.domain todo binding b :=
  ⟨of_mem_extend hp, fun h => mem_extend hp h.1 h.2 (fun _ _ => rfl) (by simp)⟩

theorem mem_bindings_iff {parameters : List Nat} {pre : Expr}
    (h : bd.Decides (pre.conjuncts.filterMap Expr.check?) parameters.length)
    (hlength : binding.length = parameters.length) :
    b ∈ bd.bindings parameters pre binding ↔ Binds bd.domain parameters binding b ∧
      bd.isConsistent (pre.conjuncts.filterMap Expr.check?) (b.map some) = true := by
  rw [bindings_eq_filter h hlength, List.mem_filter, mem_extend_nil_iff (pending_zipIdx hlength)]
  exact and_congr_left' ⟨fun hb => ⟨hb.1, hb.2⟩, fun hb => ⟨hb.toCompletes, hb.typed⟩⟩

/-- No binding is missed under which the known values do not make the expression false. -/
theorem mem_bindings_of_assign {parameters : List Nat} {pre : Expr}
    (h : bd.Decides (pre.conjuncts.filterMap Expr.check?) parameters.length)
    (hlength : binding.length = parameters.length) (hb : Binds bd.domain parameters binding b)
    (hne : (pre.subst b).assign bd.fixed ≠ .bottom) : b ∈ bd.bindings parameters pre binding :=
  (mem_bindings_iff h hlength).mpr ⟨hb, isConsistent_of_assign hne⟩

/-! ### Their order -/

theorem lt_of_prefix {b b' : List Nat} {slot c d : Nat} (hsame : ∀ i < slot, b[i]? = b'[i]?) (hc : b[slot]? = some c)
    (hd : b'[slot]? = some d) (hcd : c < d) : b < b' := by
  obtain ⟨hb, rfl⟩ := List.getElem?_eq_some_iff.mp hc
  obtain ⟨hb', rfl⟩ := List.getElem?_eq_some_iff.mp hd
  refine List.lt_iff_exists.mpr (Or.inr ⟨slot, hb, hb', fun i hi => ?_, hcd⟩)
  have heq := hsame i hi
  rwa [List.getElem?_eq_getElem (by omega), List.getElem?_eq_getElem (by omega), Option.some.injEq] at heq

/-- Bindings that differ first at a slot which is bound earlier come in the order of its values, as the domains do. -/
theorem extend_nil_lt (hdomain : ∀ t, (bd.domain t).Pairwise (· < ·)) (hp : Pending todo binding)
    (hslots : (todo.map (·.2)).Pairwise (· < ·)) : (bd.extend [] todo binding).Pairwise (· < ·) := by
  induction todo generalizing binding with
  | nil => exact List.pairwise_singleton _ _
  | cons p todo ih =>
      obtain ⟨type, slot⟩ := p
      obtain ⟨hlater, hslots⟩ := List.pairwise_cons.mp hslots
      cases hs : binding[slot]?.join with
      | some c =>
          rw [extend, hs]
          exact ih (hp.of_bound hs) hslots
      | none =>
          rw [extend_nil_cons hs, List.pairwise_flatMap]
          refine ⟨fun c _ => ih (hp.set c) hslots, (hdomain type).imp fun {c d} hcd => ?_⟩
          intro b hb b' hb'
          have hb := (of_mem_extend (hp.set c) hb).1
          have hb' := (of_mem_extend (hp.set d) hb').1
          have hlt := hp.slots _ List.mem_cons_self
          refine lt_of_prefix (fun i hi => ?_) (hb.values slot c (List.getElem?_set_self hlt))
            (hb'.values slot d (List.getElem?_set_self hlt)) hcd
          -- what comes before the slot is bound
          cases hv : binding[i]?.join with
          | some v =>
              have hv := Option.join_eq_some_iff.mp hv
              rw [hb.values i v (by rwa [List.getElem?_set_ne (by omega)]),
                hb'.values i v (by rwa [List.getElem?_set_ne (by omega)])]
          | none =>
              obtain ⟨p, hp, rfl⟩ := hp.unbound i (by omega) hv
              rcases List.mem_cons.mp hp with rfl | hp
              · exact absurd hi (lt_irrefl _)
              · exact absurd (hlater _ (List.mem_map_of_mem hp)) (lt_asymm hi)

theorem extend_zipIdx_lt (hdomain : ∀ t, (bd.domain t).Pairwise (· < ·)) {parameters : List Nat}
    (hlength : binding.length = parameters.length) : (bd.extend [] parameters.zipIdx binding).Pairwise (· < ·) := by
  refine extend_nil_lt hdomain (pending_zipIdx hlength) ?_
  rw [List.zipIdx_map_snd]
  exact List.pairwise_lt_range'

theorem bindings_lt (hdomain : ∀ t, (bd.domain t).Pairwise (· < ·)) {parameters : List Nat} {pre : Expr}
    (h : bd.Decides (pre.conjuncts.filterMap Expr.check?) parameters.length)
    (hlength : binding.length = parameters.length) : (bd.bindings parameters pre binding).Pairwise (· < ·) := by
  rw [bindings_eq_filter h hlength]
  exact (extend_zipIdx_lt hdomain hlength).filter _

end Binder

end HtnPlanner
