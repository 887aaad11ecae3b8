import HtnPlanner.Proofs.Ground.Enumeration
import HtnPlanner.Proofs.Lookup.Binder

/-!
A literal at the top of a precondition may refute a binding. No domain, table or check leaves out a binding that none
of them refutes, and none that is refuted is found. The search keeps one binding that it changes in place, and leaves
it as it was.
-/

namespace HtnPlanner

variable {b : List Nat} {binding : List (Option Nat)} {fixed : Fact → Option Bool}

/-! ### Literals at the top -/

namespace Expr

/-- A literal that is known to be false when the slots are bound by `b`. -/
def Refuted (fixed : Fact → Option Bool) (b : List Nat) : Expr → Prop
  | atom a => ∃ f, (a.subst b).fact? = some f ∧ fixed f = some false
  | neg (atom a) => ∃ f, (a.subst b).fact? = some f ∧ fixed f = some true
  | equal x y => x.subst b ≠ y.subst b
  | neg (equal x y) => x.subst b = y.subst b
  | _ => False

theorem slots_subset_of_conjunct {e pre : Expr} (h : e ∈ pre.conjuncts) : e.slots ⊆ pre.slots := by
  cases pre with
  | top => exact absurd h List.not_mem_nil
  | conj es =>
      intro i hi
      rw [slots, slotsAll_eq_flatMap]
      exact List.mem_flatMap.mpr ⟨e, h, hi⟩
  | _ =>
      obtain rfl := List.mem_singleton.mp h
      exact List.Subset.refl _

theorem signedAtoms_subset_of_conjunct {e pre : Expr} (h : e ∈ pre.conjuncts) :
    e.signedAtoms true ⊆ pre.signedAtoms true := by
  cases pre with
  | top => exact absurd h List.not_mem_nil
  | conj es =>
      intro q hq
      rw [signedAtoms, signedAtomsAll_eq_flatMap]
      exact List.mem_flatMap.mpr ⟨e, h, hq⟩
  | _ =>
      obtain rfl := List.mem_singleton.mp h
      exact List.Subset.refl _

end Expr

theorem Test.value_atom {a : Atom} (h : ∀ i ∈ (Expr.atom a).slots, i < b.length) :
    ∃ f, (a.subst b).fact? = some f ∧ (Test.atom a).value fixed (b.map some) = fixed f := by
  obtain ⟨cs, hcs⟩ := Binder.exists_fact_of_slots (a := a) (b := b) fun i hi =>
    h i (List.mem_filterMap.mpr ⟨_, hi, rfl⟩)
  exact ⟨⟨a.predicate, cs⟩, (completes_map_some b).fact?_subst hcs, by rw [value, hcs, Option.bind_some]⟩

theorem Test.value_equal {x y : Arg} (h : ∀ i ∈ (Expr.equal x y).slots, i < b.length) :
    (Test.equal x y).value fixed (b.map some) = some (decide (x.subst b = y.subst b)) := by
  have hslot : ∀ i, .slot i ∈ [x, y] → i < b.length := fun i hi => h i (List.mem_filterMap.mpr ⟨_, hi, rfl⟩)
  obtain ⟨c, hc⟩ := Arg.exists_resolve fun i (hx : x = .slot i) => hslot i (by simp [hx])
  obtain ⟨d, hd⟩ := Arg.exists_resolve fun i (hy : y = .slot i) => hslot i (by simp [hy])
  rw [value, hc, hd, (completes_map_some b).subst_eq hc, (completes_map_some b).subst_eq hd]
  by_cases heq : c = d <;> simp [heq]

/-- Of the literals at the top, the checks are those that can be refuted. -/
theorem Expr.refuted_iff {e : Expr} (h : ∀ i ∈ e.slots, i < b.length) :
    e.Refuted fixed b ↔ ∃ c, e.check? = some c ∧ c.isConsistent fixed (b.map some) = false := by
  have hatom : ∀ {a : Atom}, (∀ i ∈ (atom a).slots, i < b.length) → ∀ positive : Bool,
      (∃ f, (a.subst b).fact? = some f ∧ fixed f = some !positive) ↔
        Check.isConsistent fixed (b.map some) ⟨positive, .atom a⟩ = false := by
    intro a h positive
    obtain ⟨f, hf, hv⟩ := Test.value_atom h
    rw [Check.isConsistent, hv, hf]
    cases hvalue : fixed f with
    | none => simp [hvalue]
    | some v => cases v <;> cases positive <;> simp [hvalue]
  cases e with
  | atom a => simpa [Refuted, check?, test?] using hatom h true
  | equal x y => simp [Refuted, check?, test?, Check.isConsistent, Test.value_equal h]
  | neg e =>
      cases e with
      | atom a => simpa [Refuted, check?, test?] using hatom h false
      | equal x y => simp [Refuted, check?, test?, Check.isConsistent, Test.value_equal h]
      | _ => simp [Refuted, check?, test?]
  | _ => simp [Refuted, check?, test?]

theorem Binder.isConsistent_iff {bd : Binder} {pre : Expr} (h : ∀ i ∈ pre.slots, i < b.length) :
    bd.isConsistent (pre.conjuncts.filterMap Expr.check?) (b.map some) = true ↔
      ∀ e ∈ pre.conjuncts, ¬ e.Refuted bd.fixed b := by
  have hrefuted : ∀ e ∈ pre.conjuncts, e.Refuted bd.fixed b ↔
      ∃ c, e.check? = some c ∧ c.isConsistent bd.fixed (b.map some) = false :=
    fun e he => Expr.refuted_iff fun i hi => h i (Expr.slots_subset_of_conjunct he hi)
  simp only [isConsistent, List.all_eq_true, List.mem_filterMap]
  constructor
  · intro hall e he href
    obtain ⟨c, hc, hfalse⟩ := (hrefuted e he).mp href
    rw [hall c ⟨e, he, hc⟩] at hfalse
    exact Bool.false_ne_true hfalse.symm
  · rintro hnone c ⟨e, he, hc⟩
    by_contra hcheck
    exact hnone e he ((hrefuted e he).mpr ⟨c, hc, Bool.eq_false_iff.mpr hcheck⟩)

/-! ### One binding that is changed in place -/

/-- The binding that the search works on, and the complete ones it has come to. -/
structure Backtracking where
  binding : List (Option Nat)
  found : List (List Nat) := []

namespace Binder

variable {bd : Binder} {checks : List Check} {todo : List (Nat × Nat)} {found : List (List Nat)}

/-- Gives a slot a value and goes on, unless a check is contradicted. -/
def attempt (b : Binder) (checks : List Check) (slot : Nat) (rest : StateM Backtracking Unit) (c : Nat) :
    StateM Backtracking Unit := do
  modify fun s => { s with binding := s.binding.set slot (some c) }
  if b.isConsistent checks (← get).binding then rest

/-- `extend` by assignments: a slot takes one candidate after the other, and in the end it is unbound again. -/
def backtrack (b : Binder) (checks : List Check) : List (Nat × Nat) → StateM Backtracking Unit
  | [] => modify fun s => { s with found := s.found ++ [s.binding.filterMap id] }
  | (type, slot) :: todo => do
    let binding := (← get).binding
    match binding[slot]?.join with
    | some _ => backtrack b checks todo
    | none =>
      (b.candidates checks slot type binding).forM (b.attempt checks slot (backtrack b checks todo))
      modify fun s => { s with binding := s.binding.set slot none }

/-- Steps that each leave their own value in a slot and do not depend on the one that they find there. -/
theorem run_forM_set {f : Nat → StateM Backtracking Unit} {g : Nat → List (List Nat)} {slot : Nat}
    (h : ∀ c v found, (f c).run ⟨binding.set slot v, found⟩ = pure ((), ⟨binding.set slot (some c), found ++ g c⟩))
    (cs : List Nat) (v : Option Nat) (found : List (List Nat)) :
    ∃ w, (forM cs f).run ⟨binding.set slot v, found⟩ = pure ((), ⟨binding.set slot w, found ++ cs.flatMap g⟩) := by
  induction cs generalizing v found with
  | nil => exact ⟨v, by simp⟩
  | cons c cs ih =>
      obtain ⟨w, hw⟩ := ih (some c) (found ++ g c)
      exact ⟨w, by simp [h, hw, List.append_assoc]⟩

theorem run_attempt {slot : Nat} {rest : StateM Backtracking Unit} {g : List (Option Nat) → List (List Nat)}
    (hrest : ∀ q found, rest.run ⟨q, found⟩ = pure ((), ⟨q, found ++ g q⟩)) (c : Nat) (v : Option Nat) :
    (bd.attempt checks slot rest c).run ⟨binding.set slot v, found⟩ = pure ((), ⟨binding.set slot (some c), found ++
      if bd.isConsistent checks (binding.set slot (some c)) then g (binding.set slot (some c)) else []⟩) := by
  by_cases h : bd.isConsistent checks (binding.set slot (some c)) = true <;> simp [attempt, h, hrest]

/-- The recursion finds what `extend` finds, and gives the binding back as it got it. -/
theorem run_backtrack (binding : List (Option Nat)) (found : List (List Nat)) :
    (bd.backtrack checks todo).run ⟨binding, found⟩ = pure ((), ⟨binding, found ++ bd.extend checks todo binding⟩) := by
  induction todo generalizing binding found with
  | nil => rfl
  | cons p todo ih =>
      obtain ⟨type, slot⟩ := p
      rw [extend, backtrack, StateT.run_bind, StateT.run_get, pure_bind]
      dsimp only
      cases hs : binding[slot]?.join with
      | some c => exact ih binding found
      | none =>
          have hunbound : binding.set slot none = binding := by
            refine List.ext_getElem (List.length_set ..) fun i hi hi' => ?_
            rw [List.getElem_set]
            split
            · next heq =>
                subst heq
                simpa [hi'] using hs.symm
            · rfl
          obtain ⟨w, hw⟩ := run_forM_set (f := bd.attempt checks slot (bd.backtrack checks todo))
            (fun c v _ => run_attempt ih c v) (bd.candidates checks slot type binding) none found
          rw [hunbound] at hw
          dsimp only
          rw [List.forM_eq_forM, StateT.run_bind, hw, pure_bind, StateT.run_modify, List.set_set, hunbound]

/-! ### What is found -/

/-- The binder with the constants of a symbol table and with tables of the tuples listed for each predicate. -/
def ofFacts (s : Symbols) (arity : Nat → Nat) (facts : Nat → List (List Nat)) (inertia : PredicateInertia)
    (fixed : Fact → Option Bool) : Binder where
  domain := s.domain
  table i := .ofList (arity i) (facts i)
  closed := inertia.isClosed
  fixed := fixed

/-- `bindings` by assignments. -/
def search (b : Binder) (parameters : List Nat) (precondition : Expr) (partialBinding : List (Option Nat)) :
    Backtracking :=
  let checks := precondition.conjuncts.filterMap Expr.check?
  if b.isConsistent checks partialBinding then
    ((b.backtrack checks parameters.zipIdx).run ⟨partialBinding, []⟩).run.2
  else
    ⟨partialBinding, []⟩

theorem search_eq (bd : Binder) (parameters : List Nat) (pre : Expr) (binding : List (Option Nat)) :
    bd.search parameters pre binding = ⟨binding, bd.bindings parameters pre binding⟩ := by
  simp only [search, bindings, run_backtrack]
  split <;> rfl

variable {s : Symbols} {arity : Nat → Nat} {facts : Nat → List (List Nat)} {inertia : PredicateInertia} {pre : Expr}
  {types : List Nat}

theorem decides_ofFacts
    (hfixed : ∀ f, inertia.isClosed f.predicate = true → f.args ∉ facts f.predicate → fixed f = some false) {n : Nat}
    (hslots : ∀ i ∈ pre.slots, i < n) (harity : ∀ q ∈ pre.signedAtoms true, q.2.args.length = arity q.2.predicate) :
    (ofFacts s arity facts inertia fixed).Decides (pre.conjuncts.filterMap Expr.check?) n := by
  have htable := fun i => FactTable.ofList_spec (arity i) (facts i)
  have hatom : ∀ {a}, ⟨true, .atom a⟩ ∈ pre.conjuncts.filterMap Expr.check? → .atom a ∈ pre.conjuncts := by
    intro a ha
    obtain ⟨e, he, hec⟩ := List.mem_filterMap.mp ha
    obtain rfl : e = .atom a := Expr.check?_eq_some hec
    exact he
  refine ⟨fun i => (htable i).1, fun f hclosed hf => hfixed f hclosed fun hmem => hf ?_, fun a ha => ?_,
    fun a ha i hi => ?_⟩
  · exact ((htable f.predicate).2.2 f.args).mpr hmem
  · have hlength := harity _ (Expr.signedAtoms_subset_of_conjunct (hatom ha) (List.mem_singleton_self (true, a)))
    exact Nat.le_of_eq (hlength.trans (htable a.predicate).2.1.symm)
  · exact hslots i (Expr.slots_subset_of_conjunct (hatom ha) (List.mem_filterMap.mpr ⟨_, hi, rfl⟩))

/-- The complete bindings that are found are those of the right types which no literal refutes, each once and in
lexicographic order. The search by assignments finds the same and restores the binding, at every depth, and nothing is
looked up in vain where types and predicates are known. -/
theorem bindings_unrefuted (hs : s.Settled)
    (hfixed : ∀ f, inertia.isClosed f.predicate = true → f.args ∉ facts f.predicate → fixed f = some false)
    (hslots : ∀ i ∈ pre.slots, i < types.length)
    (harity : ∀ q ∈ pre.signedAtoms true, q.2.args.length = arity q.2.predicate)
    (hlength : binding.length = types.length) :
    let bd := ofFacts s arity facts inertia fixed
    (bd.bindings types pre binding).Pairwise (· < ·) ∧
      (∀ b, b ∈ bd.bindings types pre binding ↔
        Binds s.domain types binding b ∧ ∀ e ∈ pre.conjuncts, ¬ e.Refuted fixed b) ∧
      bd.search types pre binding = ⟨binding, bd.bindings types pre binding⟩ ∧
      (∀ checks todo q found, (bd.backtrack checks todo).run ⟨q, found⟩ =
        pure ((), ⟨q, found ++ bd.extend checks todo q⟩)) ∧
      ∀ b? : Lookup.Binder, b?.Serves s bd → (∀ t ∈ types, t < s.types.length) → pre.Fits s types.length →
        b?.bindings types pre binding = some (bd.bindings types pre binding) := by
  intro bd
  have hdecides : bd.Decides (pre.conjuncts.filterMap Expr.check?) types.length := decides_ofFacts hfixed hslots harity
  refine ⟨bindings_lt hs.ascending hdecides hlength, fun b => ?_, search_eq .., fun _ _ => run_backtrack,
    fun b? hserves htypes hpre => hserves.bindings_eq htypes hpre hlength⟩
  rw [mem_bindings_iff hdecides hlength]
  refine and_congr_right fun hb => isConsistent_iff fun i hi => ?_
  rw [hb.length, hlength]
  exact hslots i hi

/-- Three blocks, of which the first is on the second and the second is on the third. -/
def blocks : Symbols := Symbols.close {
  types := [⟨"object", [], []⟩, ⟨"block", [0], []⟩]
  constants := ⟨[("a", 1), ("b", 1), ("c", 1)]⟩
  predicates := ⟨[("on", [1, 1])]⟩ }

/-- A block that is on a second one, which is not on a third. The third is bound to the lowest block, and the first is
to be another. -/
theorem bindings_unrefuted_blocks :
    let on := [[0, 1], [1, 2]]
    let fixed : Fact → Option Bool := fun f => some (on.contains f.args)
    let pre : Expr := .conj [.atom ⟨0, [.slot 0, .slot 1]⟩, .neg (.atom ⟨0, [.slot 1, .slot 2]⟩),
      .neg (.equal (.slot 0) (.slot 2))]
    let bd := ofFacts blocks (fun _ => 2) (fun _ => on) ⟨[.static]⟩ fixed
    blocks.Settled ∧
      (∀ f : Fact, PredicateInertia.isClosed ⟨[.static]⟩ f.predicate = true → f.args ∉ on → fixed f = some false) ∧
      (∀ i ∈ pre.slots, i < 3) ∧ (∀ q ∈ pre.signedAtoms true, q.2.args.length = 2) ∧
      bd.bindings [1, 1, 1] pre [none, none, some 2] = [[1, 2, 2]] ∧
      Binds blocks.domain [1, 1, 1] [none, none, some 2] [1, 2, 2] ∧
      (bd.search [1, 1, 1] pre [none, none, some 2]).binding = [none, none, some 2] := by
  intro on fixed pre bd
  have hs : blocks.Settled := Symbols.settled_close (by decide)
  have hfixed : ∀ f : Fact, PredicateInertia.isClosed ⟨[.static]⟩ f.predicate = true → f.args ∉ on →
      fixed f = some false := by
    intro f _ hf
    simpa [fixed] using hf
  have hslots : ∀ i ∈ pre.slots, i < 3 := by decide
  have harity : ∀ q ∈ pre.signedAtoms true, q.2.args.length = 2 := by decide
  have hfound : bd.bindings [1, 1, 1] pre [none, none, some 2] = [[1, 2, 2]] := by decide +kernel
  obtain ⟨-, hmem, hsearch, -⟩ := @bindings_unrefuted [none, none, some 2] fixed blocks (fun _ => 2) (fun _ => on)
    ⟨[.static]⟩ pre [1, 1, 1] hs hfixed hslots harity rfl
  refine ⟨hs, hfixed, hslots, harity, hfound, ((hmem _).mp ?_).1, congrArg Backtracking.binding hsearch⟩
  rw [hfound]
  exact List.mem_singleton_self _

end Binder

end HtnPlanner
