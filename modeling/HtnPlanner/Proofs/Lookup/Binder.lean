import HtnPlanner.Proofs.Ground.Instances
import HtnPlanner.Proofs.Lookup.Symbols

/-!
Bindings are enumerated without a slot, a type, a predicate or a tuple that is not there.
-/

namespace HtnPlanner

theorem Catalog.lt_size_of_definition? {α : Type} {c : Catalog α} {id : Nat} {d : α}
    (h : c.definition? id = some d) : id < c.size := by
  obtain ⟨e, he, -⟩ := Option.map_eq_some_iff.mp h
  exact (List.getElem?_eq_some_iff.mp he).1

/-! ### Tables -/

namespace FactTable

/-- What the index lists is stored, and all tuples are as long as the index. -/
structure Uniform (t : FactTable) : Prop where
  listed : ∀ position c, ∀ place ∈ t.occurrences position c, place < t.size
  length : ∀ args ∈ t.facts, args.length = t.arity

theorem uniform_ofList {arity : Nat} {tuples : List (List Nat)} (h : ∀ args ∈ tuples, args.length = arity) :
    (ofList arity tuples).Uniform := by
  refine ⟨fun _ _ _ hplace => (listed_ofList arity tuples).lt_size hplace, fun args hargs => ?_⟩
  rw [arity_ofList]
  exact h args (((ofList_spec arity tuples).2.2 args).mp hargs)

theorem mem_facts_of_mem_matching {t : FactTable} {args : List Nat} {pattern : List (Option Nat)}
    (h : args ∈ t.matching pattern) :
    args ∈ t.facts := by
  rw [matching] at h
  split at h
  · obtain ⟨place, -, hplace⟩ := List.mem_filterMap.mp (List.mem_filter.mp h).1
    exact List.mem_of_getElem? hplace
  · exact h

end FactTable

namespace Lookup

variable {s : Symbols} {n : Nat} {binding : List (Option Nat)}

def insert (t : FactTable) (args : List Nat) : Option FactTable :=
  if args.length = t.arity then some (t.insert args) else none

def tableOf (arity : Nat) (tuples : List (List Nat)) : Option FactTable := tuples.foldlM insert (.empty arity)

theorem tableOf_eq {arity : Nat} {tuples : List (List Nat)} (h : ∀ args ∈ tuples, args.length = arity) :
    tableOf arity tuples = some (.ofList arity tuples) ∧ (FactTable.ofList arity tuples).Uniform := by
  refine ⟨(foldlM_eq_some (P := fun t : FactTable => t.arity = arity) (fun args hargs t ht => ?_) ?_).1,
    FactTable.uniform_ofList h⟩
  · exact ⟨if_pos ((h args hargs).trans ht.symm), (FactTable.arity_insert t args).trans ht⟩
  · exact FactTable.arity_ofList arity []

def matching (t : FactTable) (pattern : List (Option Nat)) : Option (List (List Nat)) :=
  if pattern.length = t.arity then
    match FactTable.shortest (t.occurrenceLists pattern) with
    | some places =>
      (choose (fun place => (t.facts[place]?).map some) places).map (·.filter (FactTable.fits pattern))
    | none => some t.facts
  else
    none

theorem matching_eq {t : FactTable} (h : t.Uniform) {pattern : List (Option Nat)}
    (hlength : pattern.length = t.arity) : matching t pattern = some (t.matching pattern) := by
  rw [matching, if_pos hlength, FactTable.matching]
  cases hs : FactTable.shortest (t.occurrenceLists pattern) with
  | none => rfl
  | some places =>
      obtain ⟨p, -, hplaces⟩ := List.mem_filterMap.mp (FactTable.mem_of_shortest hs)
      obtain ⟨c, -, rfl⟩ := Option.map_eq_some_iff.mp hplaces
      have hfound : ∀ place ∈ t.occurrences p.2 c, (t.facts[place]?).map some = some t.facts[place]? :=
        fun place hplace => map_some_eq (by simpa [FactTable.size] using h.listed p.2 c place hplace)
      dsimp only
      rw [choose_eq_some hfound, Option.map_some]

/-! ### Tests -/

def resolve (binding : List (Option Nat)) : Arg → Option (Option Nat)
  | .const c => some (some c)
  | .slot i => binding[i]?

def testValue (fixed : Fact → Option (Option Bool)) (binding : List (Option Nat)) : Test → Option (Option Bool)
  | .atom a => do
    match (← a.args.mapM (resolve binding)).mapM id with
    | some args => fixed ⟨a.predicate, args⟩
    | none => some none
  | .equal x y => do
    let x ← resolve binding x
    let y ← resolve binding y
    some (do return (← x) == (← y))

def isConsistent (fixed : Fact → Option (Option Bool)) (binding : List (Option Nat)) (c : Check) : Option Bool :=
  (testValue fixed binding c.test).map (·.all (· == c.positive))

theorem resolve_eq {x : Arg} (h : x.Fits s binding.length) : resolve binding x = some (x.resolve binding) := by
  cases x with
  | const c => rfl
  | slot i =>
      have hi : i < binding.length := h
      simp [resolve, Arg.resolve, List.getElem?_eq_getElem hi]

theorem mapM_resolve_eq {args : List Arg} (h : ∀ x ∈ args, x.Fits s binding.length) :
    args.mapM (resolve binding) = some (args.map (Arg.resolve binding)) :=
  mapM_eq_some fun x hx => resolve_eq (h x hx)

theorem testValue_eq {fixed? : Fact → Option (Option Bool)} {fixed : Fact → Option Bool}
    (hfixed : ∀ f : Fact, f.predicate < s.predicates.size → fixed? f = some (fixed f)) {t : Test}
    (h : t.toExpr.Fits s binding.length) : testValue fixed? binding t = some (t.value fixed binding) := by
  cases t with
  | atom a =>
      have hfits : a.Fits s binding.length := h
      obtain ⟨signature, hsignature, -⟩ := hfits.arity
      have hmapM : (a.args.map (Arg.resolve binding)).mapM id = a.args.mapM (Arg.resolve binding) := by
        rw [List.mapM_map]
        rfl
      simp only [testValue, mapM_resolve_eq hfits.args, Option.bind_eq_bind, Option.bind_some, hmapM, Test.value]
      cases a.args.mapM (Arg.resolve binding) with
      | none => rfl
      | some args => exact hfixed ⟨a.predicate, args⟩ (Catalog.lt_size_of_definition? hsignature)
  | equal x y =>
      have hfits : x.Fits s binding.length ∧ y.Fits s binding.length := h
      simp only [testValue, resolve_eq hfits.1, resolve_eq hfits.2, Option.bind_eq_bind, Option.bind_some]
      rfl

end Lookup

/-! ### The binder -/

namespace Lookup

structure Binder where
  domain : Nat → Option (List Nat)
  table : Nat → Option FactTable
  closed : Nat → Option Bool
  fixed : Fact → Option (Option Bool)

/-- A tuple's constants at the positions, if they are all the same. -/
def common (places : List Nat) (args : List Nat) : Option (Option Nat) :=
  if places.all (· < args.length) then some (HtnPlanner.Binder.common? args places) else none

namespace Binder

variable (b : Binder)

def isConsistent (checks : List Check) (binding : List (Option Nat)) : Option Bool :=
  every (Lookup.isConsistent b.fixed binding) checks

def occurring (slot : Nat) (binding : List (Option Nat)) (c : Check) : Option (Option (List Nat)) :=
  match c with
  | ⟨true, .atom a⟩ =>
    let places := positions (· == .slot slot) a.args
    if places.isEmpty then some none
    else do
      if ← b.closed a.predicate then
        let table ← b.table a.predicate
        let facts ← matching table (← a.args.mapM (resolve binding))
        (choose (common places) facts).map some
      else
        some none
  | _ => some none

def candidates (checks : List Check) (slot type : Nat) (binding : List (Option Nat)) : Option (List Nat) := do
  let occurring ← choose (b.occurring slot binding) checks
  let domain ← b.domain type
  some (domain.filter fun c => occurring.all (·.contains c))

def extend (checks : List Check) : List (Nat × Nat) → List (Option Nat) → Option (List (List Nat))
  | [], binding => some [binding.filterMap id]
  | (type, slot) :: todo, binding => do
    match ← binding[slot]? with
    | some _ => extend checks todo binding
    | none =>
      let candidates ← b.candidates checks slot type binding
      gather (fun c => do
        let binding := binding.set slot (some c)
        if ← b.isConsistent checks binding then extend checks todo binding else some []) candidates

def bindings (parameters : List Nat) (precondition : Expr) (partialBinding : List (Option Nat)) :
    Option (List (List Nat)) := do
  let checks := precondition.conjuncts.filterMap Expr.check?
  if parameters.length = partialBinding.length then
    if ← b.isConsistent checks partialBinding then b.extend checks parameters.zipIdx partialBinding else some []
  else
    none

/-- All that is looked up among the types and the predicates is found, and it is what the other binder
has. -/
structure Serves (b? : Binder) (s : Symbols) (b : HtnPlanner.Binder) : Prop where
  domain : ∀ t < s.types.length, b?.domain t = some (b.domain t)
  table : ∀ p signature, s.predicates.definition? p = some signature →
    b?.table p = some (b.table p) ∧ (b.table p).arity = signature.length ∧ (b.table p).Uniform
  closed : ∀ p < s.predicates.size, b?.closed p = some (b.closed p)
  fixed : ∀ f : Fact, f.predicate < s.predicates.size → b?.fixed f = some (b.fixed f)

variable {b} {bd : HtnPlanner.Binder} {checks : List Check}

theorem Serves.isConsistent_eq (h : b.Serves s bd)
    (hchecks : ∀ c ∈ checks, c.test.toExpr.Fits s binding.length) :
    b.isConsistent checks binding = some (bd.isConsistent checks binding) :=
  every_eq_some fun c hc => by rw [Lookup.isConsistent, testValue_eq h.fixed (hchecks c hc)]; rfl

theorem Serves.occurring_eq (h : b.Serves s bd) (slot : Nat) {c : Check}
    (hc : c.test.toExpr.Fits s binding.length) :
    b.occurring slot binding c = some (bd.occurring? slot binding c) := by
  obtain ⟨positive, test⟩ := c
  cases test with
  | equal x y => cases positive <;> rfl
  | atom a =>
      cases positive with
      | false => rfl
      | true =>
          have hfits : a.Fits s binding.length := hc
          obtain ⟨signature, hsignature, hlength⟩ := hfits.arity
          obtain ⟨htable, harity, huniform⟩ := h.table _ _ hsignature
          have hclosed := h.closed _ (Catalog.lt_size_of_definition? hsignature)
          have hpattern : (a.args.map (Arg.resolve binding)).length = (bd.table a.predicate).arity := by
            rw [List.length_map, harity, hlength]
          have hfacts := matching_eq huniform hpattern
          have hcommon : ∀ args ∈ (bd.table a.predicate).matching (a.args.map (Arg.resolve binding)),
              common (positions (· == .slot slot) a.args) args =
                some (HtnPlanner.Binder.common? args (positions (· == .slot slot) a.args)) := by
            intro args hargs
            refine if_pos (List.all_eq_true.mpr fun i hi => ?_)
            obtain ⟨x, hx, -⟩ := mem_positions.mp hi
            have hi := (List.getElem?_eq_some_iff.mp hx).1
            rw [decide_eq_true_eq, huniform.length args (FactTable.mem_facts_of_mem_matching hargs), harity, hlength]
            exact hi
          simp only [occurring, HtnPlanner.Binder.occurring?, hclosed, htable, mapM_resolve_eq hfits.args, hfacts,
            choose_eq_some hcommon, Option.bind_eq_bind, Option.bind_some]
          cases (positions (· == .slot slot) a.args).isEmpty <;> cases bd.closed a.predicate <;> rfl

theorem Serves.candidates_eq (h : b.Serves s bd) (hchecks : ∀ c ∈ checks, c.test.toExpr.Fits s binding.length)
    {type : Nat} (htype : type < s.types.length) (slot : Nat) :
    b.candidates checks slot type binding = some (bd.candidates checks slot type binding) := by
  have hoccurring := choose_eq_some fun c hc => h.occurring_eq slot (hchecks c hc)
  simp only [candidates, hoccurring, h.domain type htype, Option.bind_eq_bind, Option.bind_some,
    HtnPlanner.Binder.candidates]

/-- Slots stay below the length of the binding, which does not change while it is extended. -/
theorem Serves.extend_eq (h : b.Serves s bd) {todo : List (Nat × Nat)}
    (htodo : ∀ p ∈ todo, p.1 < s.types.length ∧ p.2 < binding.length)
    (hchecks : ∀ c ∈ checks, c.test.toExpr.Fits s binding.length) :
    b.extend checks todo binding = some (bd.extend checks todo binding) := by
  induction todo generalizing binding with
  | nil => rfl
  | cons p todo ih =>
      obtain ⟨type, slot⟩ := p
      obtain ⟨htype, hslot⟩ := htodo _ List.mem_cons_self
      have hrest := fun p hp => htodo p (List.mem_cons_of_mem _ hp)
      have hget : binding[slot]? = some binding[slot] := List.getElem?_eq_getElem hslot
      rw [extend, HtnPlanner.Binder.extend, hget]
      cases hvalue : binding[slot] with
      | some c => exact ih hrest hchecks
      | none =>
          simp only [h.candidates_eq hchecks htype slot, Option.bind_eq_bind, Option.bind_some, Option.join_some]
          refine gather_eq_some fun c _ => ?_
          have hlength : (binding.set slot (some c)).length = binding.length := List.length_set ..
          rw [h.isConsistent_eq (hlength ▸ hchecks), Option.bind_some]
          split
          · exact ih (hlength ▸ hrest) (hlength ▸ hchecks)
          · rfl

theorem Serves.bindings_eq (h : b.Serves s bd) {parameters : List Nat} (htypes : ∀ t ∈ parameters, t < s.types.length)
    {pre : Expr} (hpre : pre.Fits s parameters.length) (hlength : binding.length = parameters.length) :
    b.bindings parameters pre binding = some (bd.bindings parameters pre binding) := by
  have hchecks : ∀ c ∈ pre.conjuncts.filterMap Expr.check?, c.test.toExpr.Fits s binding.length := by
    intro c hc
    obtain ⟨e, he, hec⟩ := List.mem_filterMap.mp hc
    have hfits := Expr.Over.conjuncts hpre e he
    rw [Expr.check?_eq_some hec] at hfits
    rw [hlength]
    split at hfits
    · exact hfits
    · exact hfits
  have htodo : ∀ p ∈ parameters.zipIdx, p.1 < s.types.length ∧ p.2 < binding.length := by
    intro p hp
    have hget := List.mem_zipIdx_iff_getElem?.mp hp
    exact ⟨htypes p.1 (List.mem_of_getElem? hget), hlength ▸ (List.getElem?_eq_some_iff.mp hget).1⟩
  simp only [bindings, HtnPlanner.Binder.bindings, hlength, if_true, h.isConsistent_eq hchecks, Option.bind_eq_bind,
    Option.bind_some]
  split
  · exact h.extend_eq htodo hchecks
  · rfl

end Binder

end Lookup

end HtnPlanner
