import HtnPlanner.Lifted.Naming
import HtnPlanner.Proofs.Lifted.WellFormed
import Mathlib.Data.List.Forall2

/-!
The lifted problem of a domain and a problem is well formed.
-/

namespace HtnPlanner

/-! ### Work that succeeds -/

theorem Except.bind_eq_ok {ε α β : Type} {x : Except ε α} {f : α → Except ε β} {b : β} :
    (x >>= f) = .ok b ↔ ∃ a, x = .ok a ∧ f a = .ok b := by
  cases x <;> simp [bind, Except.bind]

theorem Except.map_eq_ok {ε α β : Type} {x : Except ε α} {f : α → β} {b : β} :
    x.map f = .ok b ↔ ∃ a, x = .ok a ∧ f a = b := by
  cases x <;> simp [Except.map]

theorem Except.mapM_eq_ok {ε α β : Type} {f : α → Except ε β} {as : List α} {bs : List β}
    (h : as.mapM f = .ok bs) : bs.length = as.length ∧ ∀ b ∈ bs, ∃ a ∈ as, f a = .ok b := by
  induction as generalizing bs with
  | nil =>
      obtain rfl : [] = bs := by simpa [pure, Except.pure] using h
      simp
  | cons a as ih =>
      rw [List.mapM_cons] at h
      obtain ⟨b, hb, h⟩ := Except.bind_eq_ok.mp h
      obtain ⟨bs', hbs, h⟩ := Except.bind_eq_ok.mp h
      obtain rfl : b :: bs' = bs := by simpa [pure, Except.pure] using h
      obtain ⟨hlength, hmem⟩ := ih hbs
      refine ⟨by simp [hlength], fun c hc => ?_⟩
      rcases List.mem_cons.mp hc with rfl | hc
      · exact ⟨a, List.mem_cons_self, hb⟩
      · obtain ⟨a', ha', hf⟩ := hmem c hc
        exact ⟨a', List.mem_cons_of_mem a ha', hf⟩

theorem Except.mapM_eq_ok_iff {ε α β : Type} {f : α → Except ε β} {as : List α} {bs : List β} :
    as.mapM f = .ok bs ↔ List.Forall₂ (fun a b => f a = .ok b) as bs := by
  induction as generalizing bs with
  | nil => simp [pure, Except.pure, eq_comm]
  | cons a as ih =>
      rw [List.mapM_cons, Except.bind_eq_ok, List.forall₂_cons_left_iff]
      refine exists_congr fun b => ?_
      rw [Except.bind_eq_ok]
      simp only [ih, pure, Except.pure, Except.ok.injEq]
      constructor
      · rintro ⟨hb, bs', hbs, rfl⟩
        exact ⟨bs', hb, hbs, rfl⟩
      · rintro ⟨bs', hb, hbs, rfl⟩
        exact ⟨hb, bs', hbs, rfl⟩

theorem Except.exists_of_mapM_eq_ok {ε α β : Type} {f : α → Except ε β} {as : List α} {bs : List β}
    (h : as.mapM f = .ok bs) {a : α} (ha : a ∈ as) : ∃ b ∈ bs, f a = .ok b := by
  rw [mapM_eq_ok_iff] at h
  induction h with
  | nil => exact absurd ha List.not_mem_nil
  | cons hb _ ih =>
      rcases List.mem_cons.mp ha with rfl | ha
      · exact ⟨_, List.mem_cons_self, hb⟩
      · obtain ⟨b, hmem, hab⟩ := ih ha
        exact ⟨b, List.mem_cons_of_mem _ hmem, hab⟩

theorem Except.exists_mapM_eq_ok {ε α β : Type} {f : α → Except ε β} {as : List α}
    (h : ∀ a ∈ as, ∃ b, f a = .ok b) : ∃ bs, as.mapM f = .ok bs := by
  induction as with
  | nil => exact ⟨[], rfl⟩
  | cons a as ih =>
      obtain ⟨⟨b, hb⟩, hrest⟩ := List.forall_mem_cons.mp h
      obtain ⟨bs, hbs⟩ := ih hrest
      exact ⟨b :: bs, mapM_eq_ok_iff.mpr (.cons hb (mapM_eq_ok_iff.mp hbs))⟩

theorem exists_ok_of_any {ε α : Type} {x : Except ε α} {Q : α → Prop} [DecidablePred Q]
    (h : x.toOption.any Q = true) : ∃ a, x = .ok a ∧ Q a := by
  cases x with
  | error e => exact absurd h Bool.false_ne_true
  | ok a => exact ⟨a, rfl, of_decide_eq_true h⟩

/-! ### Work that fails -/

theorem Except.bind_eq_error {ε α β : Type} {x : Except ε α} {f : α → Except ε β} {e : ε} :
    (x >>= f) = .error e ↔ x = .error e ∨ ∃ a, x = .ok a ∧ f a = .error e := by
  cases x <;> simp [bind, Except.bind]

theorem Except.map_eq_error {ε α β : Type} {x : Except ε α} {f : α → β} {e : ε} :
    x.map f = .error e ↔ x = .error e := by
  cases x <;> simp [Except.map]

theorem Except.exists_of_mapM_eq_error {ε α β : Type} {f : α → Except ε β} {as : List α} {e : ε}
    (h : as.mapM f = .error e) : ∃ a ∈ as, f a = .error e := by
  induction as with
  | nil => cases h
  | cons a as ih =>
      rw [List.mapM_cons, Except.bind_eq_error] at h
      rcases h with ha | ⟨b, -, h⟩
      · exact ⟨a, List.mem_cons_self, ha⟩
      rcases Except.bind_eq_error.mp h with has | ⟨bs, -, h⟩
      · obtain ⟨a', ha', he⟩ := ih has
        exact ⟨a', List.mem_cons_of_mem a ha', he⟩
      · cases h

theorem eq_error_of_all {ε α : Type} [DecidableEq ε] {x : Except ε α} {e : ε}
    (h : (match x with | .ok _ => false | .error e' => decide (e' = e)) = true) : x = .error e := by
  cases x with
  | ok a => exact absurd h Bool.false_ne_true
  | error e' => rw [of_decide_eq_true h]

namespace Naming

variable {α β : Type} {s s' : Symbols}

theorem bind_eq_ok {x : Naming α} {f : α → Naming β} {b : β} :
    (x >>= f) s = .ok (b, s') ↔ ∃ a t, x s = .ok (a, t) ∧ f a t = .ok (b, s') := by
  change x s >>= (fun r => f r.1 r.2) = .ok (b, s') ↔ _
  rw [Except.bind_eq_ok]
  exact Prod.exists

theorem pure_eq_ok {a b : α} : (pure a : Naming α) s = .ok (b, s') ↔ a = b ∧ s = s' := by
  change Except.ok (a, s) = .ok (b, s') ↔ _
  simp

theorem lift_eq_ok {x : Except GroundingError α} {a : α} :
    (liftM x : Naming α) s = .ok (a, s') ↔ x = .ok a ∧ s = s' := by
  change (x >>= fun a => .ok (a, s)) = .ok (a, s') ↔ _
  rw [Except.bind_eq_ok]
  simp

theorem get_eq_ok {t : Symbols} : (get : Naming Symbols) s = .ok (t, s') ↔ s = t ∧ s = s' := by
  change Except.ok (s, s) = .ok (t, s') ↔ _
  simp

theorem throw_ne_ok {e : GroundingError} {a : α} : (throw e : Naming α) s ≠ .ok (a, s') := by
  simp [throw, throwThe, MonadExceptOf.throw, StateT.lift, bind, Except.bind]

/-- What every piece of work keeps holds after all of them, with what each says of its own result. -/
theorem mapM_eq_ok {f : α → Naming β} {P : Symbols → Prop} {Q : β → Symbols → Prop} {as : List α}
    (hstep : ∀ a ∈ as, ∀ s b s', P s → f a s = .ok (b, s') → P s' ∧ s.Follows s' ∧ Q b s')
    (hkeep : ∀ b s s', s.Follows s' → Q b s → Q b s') {bs : List β} (hs : P s)
    (h : as.mapM f s = .ok (bs, s')) : P s' ∧ s.Follows s' ∧ ∀ b ∈ bs, Q b s' := by
  induction as generalizing bs s with
  | nil =>
      obtain ⟨rfl, rfl⟩ := pure_eq_ok.mp h
      exact ⟨hs, .refl s, by simp⟩
  | cons a as ih =>
      rw [List.mapM_cons] at h
      obtain ⟨b, t, hb, h⟩ := bind_eq_ok.mp h
      obtain ⟨bs', t', hbs, h⟩ := bind_eq_ok.mp h
      obtain ⟨rfl, rfl⟩ := pure_eq_ok.mp h
      obtain ⟨ht, hst, hq⟩ := hstep a List.mem_cons_self s b t hs hb
      obtain ⟨ht', htt', hqs⟩ := ih (fun a ha => hstep a (List.mem_cons_of_mem _ ha)) ht hbs
      exact ⟨ht', hst.trans htt', List.forall_mem_cons.mpr ⟨hkeep b _ _ htt' hq, hqs⟩⟩

/-- What is said of each result, and stays true when types are added, is true of all of them. -/
theorem forall₂_of_mapM {f : α → Naming β} {R : Symbols → α → β → Prop} {as : List α} {bs : List β}
    (hstep : ∀ a s b s', f a s = .ok (b, s') → s.Extends s' ∧ R s' a b)
    (hkeep : ∀ s s' a b, s.Extends s' → R s a b → R s' a b) (h : as.mapM f s = .ok (bs, s')) :
    s.Extends s' ∧ List.Forall₂ (R s') as bs := by
  induction as generalizing bs s with
  | nil =>
      obtain ⟨rfl, rfl⟩ := pure_eq_ok.mp h
      exact ⟨.refl s, .nil⟩
  | cons a as ih =>
      rw [List.mapM_cons] at h
      obtain ⟨b, t, hb, h⟩ := bind_eq_ok.mp h
      obtain ⟨bs', t', hbs, h⟩ := bind_eq_ok.mp h
      obtain ⟨rfl, rfl⟩ := pure_eq_ok.mp h
      obtain ⟨hextends, hr⟩ := hstep a s b t hb
      obtain ⟨hextends', hrs⟩ := ih hbs
      exact ⟨hextends.trans hextends', .cons (hkeep t _ a b hextends' hr) hrs⟩

theorem forM_eq_ok {f : α → Naming Unit} {P : Symbols → Prop} {as : List α}
    (hstep : ∀ a ∈ as, ∀ s s', P s → f a s = .ok ((), s') → P s') (hs : P s)
    (h : as.forM f s = .ok ((), s')) : P s' := by
  induction as generalizing s with
  | nil =>
      obtain ⟨-, rfl⟩ := pure_eq_ok.mp h
      exact hs
  | cons a as ih =>
      obtain ⟨_, t, ha, h⟩ := bind_eq_ok.mp h
      exact ih (fun a ha => hstep a (List.mem_cons_of_mem _ ha)) (hstep a List.mem_cons_self s t hs ha) h

end Naming

/-! ### Names -/

theorem Catalog.exists_definition? {α : Type} {c : Catalog α} {name : String} {id : Nat}
    (h : c.id? name = some id) : ∃ d, c.definition? id = some d := by
  obtain ⟨hid, -⟩ := List.findIdx?_eq_some_iff_getElem.mp h
  exact ⟨_, by rw [definition?, List.getElem?_eq_getElem hid]; rfl⟩

variable {s s' : Symbols} {sc : Scope}

theorem lt_size_of_knownConstant {name : String} {c : Nat} (h : knownConstant s name = .ok c) :
    c < s.constants.size := by
  rw [knownConstant] at h
  cases hid : s.constants.id? name with
  | none => simp [hid] at h
  | some d =>
      obtain rfl : d = c := by simpa [hid] using h
      exact (List.findIdx?_eq_some_iff_getElem.mp hid).1

theorem checkArity_eq_ok {name : String} {expected found : Nat} {u : Unit}
    (h : checkArity name expected found = .ok u) : expected = found := by
  rw [checkArity] at h
  split at h
  · assumption
  · exact absurd h (by simp)

theorem arity_of_knownPredicate {name : String} {arity p : Nat} (h : knownPredicate s name arity = .ok p) :
    ∃ signature, s.predicates.definition? p = some signature ∧ signature.length = arity := by
  rw [knownPredicate] at h
  cases hid : s.predicates.id? name with
  | none => simp [hid] at h
  | some q =>
      obtain ⟨signature, hq⟩ := Catalog.exists_definition? hid
      simp only [hid, hq] at h
      obtain ⟨_, hcheck, h⟩ := Except.bind_eq_ok.mp h
      obtain rfl : q = p := by simpa [pure, Except.pure] using h
      exact ⟨signature, hq, checkArity_eq_ok hcheck⟩

theorem arity_of_knownTask {name : String} {arity t : Nat} (h : knownTask s name arity = .ok t) :
    ∃ signature, s.tasks.definition? t = some signature ∧ signature.parameters.length = arity := by
  rw [knownTask] at h
  cases hid : s.tasks.id? name with
  | none => simp [hid] at h
  | some q =>
      obtain ⟨signature, hq⟩ := Catalog.exists_definition? hid
      simp only [hid, hq] at h
      obtain ⟨_, hcheck, h⟩ := Except.bind_eq_ok.mp h
      obtain rfl : q = t := by simpa [pure, Except.pure] using h
      exact ⟨signature, hq, checkArity_eq_ok hcheck⟩

namespace Scope

theorem fits_arg {t : Definition.Term} {x : Arg} (h : sc.arg s t = .ok x) : x.Fits s sc.names.length := by
  cases t with
  | name n =>
      obtain ⟨c, hc, rfl⟩ := Except.map_eq_ok.mp h
      exact lt_size_of_knownConstant hc
  | var v =>
      simp only [arg] at h
      cases hi : sc.names.idxOf? v with
      | none => simp [hi] at h
      | some i =>
          obtain rfl : Arg.slot i = x := by simpa [hi] using h
          exact (List.findIdx?_eq_some_iff_getElem.mp hi).1

theorem fits_args {ts : List Definition.Term} {xs : List Arg} (h : ts.mapM (sc.arg s) = .ok xs) :
    xs.length = ts.length ∧ ∀ x ∈ xs, x.Fits s sc.names.length := by
  obtain ⟨hlength, hmem⟩ := Except.mapM_eq_ok h
  refine ⟨hlength, fun x hx => ?_⟩
  obtain ⟨t, -, ht⟩ := hmem x hx
  exact fits_arg ht

theorem atom_eq_ok {a : Definition.Atom Definition.Term} {b : Atom} : sc.atom s a = .ok b ↔
    knownPredicate s a.name a.values.length = .ok b.predicate ∧ a.values.mapM (sc.arg s) = .ok b.args := by
  constructor
  · intro h
    obtain ⟨p, hp, h⟩ := Except.bind_eq_ok.mp h
    obtain ⟨xs, hxs, h⟩ := Except.bind_eq_ok.mp h
    obtain rfl : (⟨p, xs⟩ : Atom) = b := by simpa [pure, Except.pure] using h
    exact ⟨hp, hxs⟩
  · rintro ⟨hp, hxs⟩
    exact Except.bind_eq_ok.mpr ⟨_, hp, Except.bind_eq_ok.mpr ⟨_, hxs, rfl⟩⟩

theorem task_eq_ok {a : Definition.Atom Definition.Term} {t : TaskRef} : sc.task s a = .ok t ↔
    knownTask s a.name a.values.length = .ok t.symbol ∧ a.values.mapM (sc.arg s) = .ok t.args := by
  constructor
  · intro h
    obtain ⟨q, hq, h⟩ := Except.bind_eq_ok.mp h
    obtain ⟨xs, hxs, h⟩ := Except.bind_eq_ok.mp h
    obtain rfl : (⟨q, xs⟩ : TaskRef) = t := by simpa [pure, Except.pure] using h
    exact ⟨hq, hxs⟩
  · rintro ⟨hq, hxs⟩
    exact Except.bind_eq_ok.mpr ⟨_, hq, Except.bind_eq_ok.mpr ⟨_, hxs, rfl⟩⟩

theorem fits_atom {a : Definition.Atom Definition.Term} {b : Atom} (h : sc.atom s a = .ok b) :
    b.Fits s sc.names.length := by
  obtain ⟨hp, hxs⟩ := atom_eq_ok.mp h
  obtain ⟨signature, hsignature, hlength⟩ := arity_of_knownPredicate hp
  obtain ⟨hxlength, hfits⟩ := fits_args hxs
  exact ⟨⟨signature, hsignature, hlength.trans hxlength.symm⟩, hfits⟩

theorem fits_task {a : Definition.Atom Definition.Term} {t : TaskRef} (h : sc.task s a = .ok t) :
    t.Fits s sc.names.length := by
  obtain ⟨hq, hxs⟩ := task_eq_ok.mp h
  obtain ⟨signature, hsignature, hlength⟩ := arity_of_knownTask hq
  obtain ⟨hxlength, hfits⟩ := fits_args hxs
  exact ⟨⟨signature, hsignature, hlength.trans hxlength.symm⟩, hfits⟩

theorem formulas_eq_ok {fs : List Definition.Formula} {es : List Expr} (h : sc.formulas s fs = .ok es) :
    ∀ e ∈ es, ∃ f ∈ fs, sc.formula s f = .ok e := by
  induction fs generalizing es with
  | nil =>
      obtain rfl : [] = es := by simpa [formulas] using h
      simp
  | cons f fs ih =>
      rw [formulas] at h
      obtain ⟨e, he, h⟩ := Except.bind_eq_ok.mp h
      obtain ⟨es', hes, h⟩ := Except.bind_eq_ok.mp h
      obtain rfl : e :: es' = es := by simpa [pure, Except.pure] using h
      rw [List.forall_mem_cons]
      refine ⟨⟨f, List.mem_cons_self, he⟩, fun d hd => ?_⟩
      obtain ⟨g, hg, hgd⟩ := ih hes d hd
      exact ⟨g, List.mem_cons_of_mem f hg, hgd⟩

theorem fits_formula {f : Definition.Formula} {e : Expr} (h : sc.formula s f = .ok e) :
    e.Fits s sc.names.length := by
  induction f using Definition.Formula.induct generalizing e with
  | atom a =>
      rw [formula] at h
      obtain ⟨b, hb, rfl⟩ := Except.map_eq_ok.mp h
      exact fits_atom hb
  | conj fs ih =>
      rw [formula] at h
      obtain ⟨es, hes, rfl⟩ := Except.map_eq_ok.mp h
      apply Expr.over_conj.mpr
      intro e he
      obtain ⟨f, hf, hfe⟩ := formulas_eq_ok hes e he
      exact ih f hf hfe
  | disj fs ih =>
      rw [formula] at h
      obtain ⟨es, hes, rfl⟩ := Except.map_eq_ok.mp h
      apply Expr.over_disj.mpr
      intro e he
      obtain ⟨f, hf, hfe⟩ := formulas_eq_ok hes e he
      exact ih f hf hfe
  | neg f ih =>
      rw [formula] at h
      obtain ⟨d, hd, rfl⟩ := Except.map_eq_ok.mp h
      have hfits := ih hd
      exact hfits
  | imply f g ihf ihg =>
      rw [formula] at h
      obtain ⟨d, hd, h⟩ := Except.bind_eq_ok.mp h
      obtain ⟨c, hc, h⟩ := Except.bind_eq_ok.mp h
      obtain rfl : Expr.disj [.neg d, c] = e := by simpa [pure, Except.pure] using h
      apply Expr.over_disj.mpr
      intro x hx
      simp only [List.mem_cons, List.not_mem_nil, or_false] at hx
      rcases hx with rfl | rfl
      · have hfits := ihf hd
        exact hfits
      · exact ihg hc
  | equal a b =>
      rw [formula] at h
      obtain ⟨x, hx, h⟩ := Except.bind_eq_ok.mp h
      obtain ⟨y, hy, h⟩ := Except.bind_eq_ok.mp h
      obtain rfl : Expr.equal x y = e := by simpa [pure, Except.pure] using h
      exact ⟨fits_arg hx, fits_arg hy⟩

theorem fits_condition {fs : List Definition.Formula} {e : Expr} (h : sc.condition s fs = .ok e) :
    e.Fits s sc.names.length := by
  obtain ⟨es, hes, rfl⟩ := Except.map_eq_ok.mp h
  refine Expr.Over.simplify (Expr.over_conj.mpr fun e he => ?_) fun _ _ => Expr.over_equate
  obtain ⟨f, -, hf⟩ := formulas_eq_ok hes e he
  exact fits_formula hf

theorem isEffect_effects {es : List Definition.Effect} {e : Expr} (h : sc.effects s es = .ok e) :
    e.IsEffect s sc.names.length := by
  obtain ⟨ls, hls, rfl⟩ := Except.map_eq_ok.mp h
  refine ⟨ls, rfl, fun l hl => ?_⟩
  obtain ⟨d, -, hd⟩ := (Except.mapM_eq_ok hls).2 l hl
  cases d with
  | add a =>
      obtain ⟨b, hb, rfl⟩ := Except.map_eq_ok.mp hd
      exact ⟨b, fits_atom hb, Or.inl rfl⟩
  | delete a =>
      obtain ⟨b, hb, rfl⟩ := Except.map_eq_ok.mp hd
      exact ⟨b, fits_atom hb, Or.inr rfl⟩

theorem position_lt {subtasks : List Definition.Subtask} {label : String} {i : Nat}
    (h : sc.position subtasks label = .ok i) : i < subtasks.length := by
  rw [position] at h
  split at h
  · next p hp =>
      obtain rfl : p = i := by simpa using h
      obtain ⟨_, hget, -⟩ := mem_positions.mp (List.mem_of_getLast? hp)
      exact (List.getElem?_eq_some_iff.mp hget).1
  · exact absurd h (by simp)

theorem precedence_eq_ok {subtasks : List Definition.Subtask} {p : String × String} {q : Nat × Nat} :
    sc.precedence subtasks p = .ok q ↔
      p.1 ≠ p.2 ∧ sc.position subtasks p.1 = .ok q.1 ∧ sc.position subtasks p.2 = .ok q.2 := by
  rw [precedence]
  split
  · next heq => simp [heq, throw, throwThe, MonadExceptOf.throw, bind, Except.bind]
  · next hne =>
      simp only [ne_eq, hne, not_false_eq_true, true_and]
      constructor
      · intro h
        obtain ⟨before, hbefore, h⟩ := Except.bind_eq_ok.mp h
        obtain ⟨after, hafter, h⟩ := Except.bind_eq_ok.mp h
        obtain rfl : (before, after) = q := by simpa [pure, Except.pure] using h
        exact ⟨hbefore, hafter⟩
      · rintro ⟨hbefore, hafter⟩
        exact Except.bind_eq_ok.mpr ⟨_, hbefore, Except.bind_eq_ok.mpr ⟨_, hafter, rfl⟩⟩

theorem precedence_lt {subtasks : List Definition.Subtask} {p : String × String} {q : Nat × Nat}
    (h : sc.precedence subtasks p = .ok q) : q.1 < subtasks.length ∧ q.2 < subtasks.length := by
  obtain ⟨-, hbefore, hafter⟩ := precedence_eq_ok.mp h
  exact ⟨position_lt hbefore, position_lt hafter⟩

theorem network_eq_ok {n : Definition.Network} {network : Schema.Network} : sc.network s n = .ok network ↔
    n.subtasks.mapM (sc.task s ·.task) = .ok network.tasks ∧
      n.ordering.mapM (sc.precedence n.subtasks) = .ok network.order := by
  constructor
  · intro h
    obtain ⟨tasks, htasks, h⟩ := Except.bind_eq_ok.mp h
    obtain ⟨order, horder, h⟩ := Except.bind_eq_ok.mp h
    obtain rfl : (⟨tasks, order⟩ : Schema.Network) = network := by simpa [pure, Except.pure] using h
    exact ⟨htasks, horder⟩
  · rintro ⟨htasks, horder⟩
    exact Except.bind_eq_ok.mpr ⟨_, htasks, Except.bind_eq_ok.mpr ⟨_, horder, rfl⟩⟩

theorem fits_network {n : Definition.Network} {network : Schema.Network}
    (h : sc.network s n = .ok network) : network.Fits s sc.names.length := by
  obtain ⟨htasks, horder⟩ := network_eq_ok.mp h
  obtain ⟨hlength, htask⟩ := Except.mapM_eq_ok htasks
  refine ⟨fun t ht => ?_, fun q hq => ?_⟩
  · obtain ⟨a, -, ha⟩ := htask t ht
    exact fits_task ha
  · obtain ⟨p, -, hp⟩ := (Except.mapM_eq_ok horder).2 q hq
    rw [hlength]
    exact precedence_lt hp

end Scope

theorem initialFact_eq_ok {a : Definition.Atom String} {f : Fact} : initialFact s a = .ok f ↔
    knownPredicate s a.name a.values.length = .ok f.predicate ∧ a.values.mapM (knownConstant s) = .ok f.args := by
  constructor
  · intro h
    obtain ⟨q, hq, h⟩ := Except.bind_eq_ok.mp h
    obtain ⟨cs, hcs, h⟩ := Except.bind_eq_ok.mp h
    obtain rfl : (⟨q, cs⟩ : Fact) = f := by simpa [pure, Except.pure] using h
    exact ⟨hq, hcs⟩
  · rintro ⟨hq, hcs⟩
    exact Except.bind_eq_ok.mpr ⟨_, hq, Except.bind_eq_ok.mpr ⟨_, hcs, rfl⟩⟩

theorem fits_initialFacts {init : List (Definition.Atom String)} {facts : List Fact}
    (h : initialFacts s init = .ok facts) : ∀ f ∈ facts, f.Fits s := by
  obtain ⟨fs, hfs, rfl⟩ := Except.map_eq_ok.mp h
  intro f hf
  obtain ⟨a, -, ha⟩ := (Except.mapM_eq_ok hfs).2 f (List.mem_eraseDups.mp hf)
  obtain ⟨hp, hcs⟩ := initialFact_eq_ok.mp ha
  obtain ⟨signature, hsignature, hlength⟩ := arity_of_knownPredicate hp
  exact ⟨signature, hsignature, hlength.trans (Except.mapM_eq_ok hcs).1.symm⟩

namespace Naming

theorem follows_type {ref : Definition.TypeRef} {t : Nat} (h : type ref s = .ok (t, s')) :
    s.Follows s' ∧ (0 < s.types.length → t < s'.types.length) := Symbols.follows_resolve h

theorem follows_types {typed : List Definition.Typed} {ts : List Nat} (h : types typed s = .ok (ts, s')) :
    s.Follows s' := by
  refine (mapM_eq_ok (P := fun _ => True) (Q := fun _ _ => True) (fun t _ s b s' _ ht => ?_) ?_ trivial h).2.1
  · exact ⟨trivial, (follows_type ht).1, trivial⟩
  · exact fun _ _ _ _ _ => trivial

theorem addParameter_eq_ok {t : Definition.Typed} {sc' : Scope} : addParameter sc t s = .ok (sc', s') ↔
    t.value ∉ sc.names ∧ ∃ id, type t.type s = .ok (id, s') ∧
      { sc with names := sc.names ++ [t.value], types := sc.types ++ [id] } = sc' := by
  rw [addParameter]
  by_cases h : t.value ∈ sc.names
  · rw [if_pos h]
    refine ⟨fun hthrow => ?_, fun hnew => absurd h hnew.1⟩
    obtain ⟨_, _, hthrow, -⟩ := bind_eq_ok.mp hthrow
    exact absurd hthrow throw_ne_ok
  · rw [if_neg h]
    simp only [h, not_false_eq_true, true_and]
    constructor
    · intro hp
      obtain ⟨id, t', ht, hp⟩ := bind_eq_ok.mp hp
      obtain ⟨rfl, rfl⟩ := pure_eq_ok.mp hp
      exact ⟨id, ht, rfl⟩
    · rintro ⟨id, ht, rfl⟩
      exact bind_eq_ok.mpr ⟨id, s', ht, rfl⟩

theorem foldlM_addParameter_names {ps : List Definition.Typed} {sc' : Scope}
    (h : ps.foldlM addParameter sc s = .ok (sc', s')) :
    s.Extends s' ∧ sc'.names = sc.names ++ ps.map (·.value) := by
  induction ps generalizing sc s with
  | nil =>
      obtain ⟨rfl, rfl⟩ := pure_eq_ok.mp h
      exact ⟨.refl s, (List.append_nil _).symm⟩
  | cons p ps ih =>
      rw [List.foldlM_cons] at h
      obtain ⟨sc₁, s₁, hp, h⟩ := bind_eq_ok.mp h
      obtain ⟨-, t, ht, rfl⟩ := addParameter_eq_ok.mp hp
      obtain ⟨hextends, hnames⟩ := ih h
      exact ⟨(follows_type ht).1.toExtends.trans hextends, by rw [hnames]; simp⟩

theorem scope_names {name : String} {ps : List Definition.Typed} (h : scope name ps s = .ok (sc, s')) :
    s.Extends s' ∧ sc.names = ps.map (·.value) :=
  foldlM_addParameter_names h

/-- The parts of an action that is translated. -/
structure ActionParts (d : Definition.Action) (s s' : Symbols) (sc : Scope) (a : Schema.Action) : Prop where
  scope : scope d.name d.parameters s = .ok (sc, s')
  precondition : sc.condition s' d.preconditions = .ok a.precondition
  effect : sc.effects s' d.effects = .ok a.effect
  task : s'.tasks.id? d.name = some a.task
  parameters : a.parameters = sc.types

theorem parts_of_action {d : Definition.Action} {a : Schema.Action} (h : action d s = .ok (a, s')) :
    ∃ sc, ActionParts d s s' sc a := by
  obtain ⟨sc, s₁, hsc, h⟩ := bind_eq_ok.mp h
  obtain ⟨_, _, hget, h⟩ := bind_eq_ok.mp h
  obtain ⟨rfl, rfl⟩ := get_eq_ok.mp hget
  obtain ⟨pre, _, hpre, h⟩ := bind_eq_ok.mp h
  obtain ⟨hpre', rfl⟩ := lift_eq_ok.mp hpre
  obtain ⟨eff, _, heff, h⟩ := bind_eq_ok.mp h
  obtain ⟨heff', rfl⟩ := lift_eq_ok.mp heff
  cases htask : s₁.tasks.id? d.name with
  | none =>
      simp only [htask] at h
      obtain ⟨_, _, hthrow, -⟩ := bind_eq_ok.mp h
      exact absurd hthrow throw_ne_ok
  | some t =>
      simp only [htask] at h
      obtain ⟨_, _, ht, h⟩ := bind_eq_ok.mp h
      obtain ⟨rfl, rfl⟩ := pure_eq_ok.mp ht
      obtain ⟨rfl, rfl⟩ := pure_eq_ok.mp h
      exact ⟨sc, hsc, hpre', heff', htask, rfl⟩

/-- The parts of a method that is translated. -/
structure MethodParts (d : Definition.Method) (s s' : Symbols) (sc : Scope) (m : Schema.Method) : Prop where
  scope : scope d.name d.parameters s = .ok (sc, s')
  task : sc.task s' d.task = .ok m.task
  precondition : sc.condition s' d.preconditions = .ok m.precondition
  network : sc.network s' d.network = .ok m.network
  parameters : m.parameters = sc.types

theorem parts_of_method {d : Definition.Method} {m : Schema.Method} (h : method d s = .ok (m, s')) :
    ∃ sc, MethodParts d s s' sc m := by
  obtain ⟨sc, s₁, hsc, h⟩ := bind_eq_ok.mp h
  obtain ⟨_, _, hget, h⟩ := bind_eq_ok.mp h
  obtain ⟨rfl, rfl⟩ := get_eq_ok.mp hget
  obtain ⟨task, _, htask, h⟩ := bind_eq_ok.mp h
  obtain ⟨htask', rfl⟩ := lift_eq_ok.mp htask
  obtain ⟨pre, _, hpre, h⟩ := bind_eq_ok.mp h
  obtain ⟨hpre', rfl⟩ := lift_eq_ok.mp hpre
  obtain ⟨network, _, hnetwork, h⟩ := bind_eq_ok.mp h
  obtain ⟨hnetwork', rfl⟩ := lift_eq_ok.mp hnetwork
  obtain ⟨rfl, rfl⟩ := pure_eq_ok.mp h
  exact ⟨sc, hsc, htask', hpre', hnetwork', rfl⟩

/-- The parts of a problem that is translated, with the symbols after the declarations and after the actions. -/
structure Parts (d : Definition.Domain) (pr : Definition.Problem) (s s₁ s₂ : Symbols) (p : LiftedProblem) : Prop where
  declared : declare d pr s = .ok ((), s₁)
  actions : d.actions.mapM action s₁ = .ok (p.actions, s₂)
  methods : d.methods.mapM method s₂ = .ok (p.methods, p.symbols)
  init : initialFacts p.symbols pr.init = .ok p.init
  goal : Scope.condition { name := pr.name } p.symbols pr.goal = .ok p.goal
  network : Scope.network { name := pr.name } p.symbols pr.htn = .ok p.network
  domainName : p.domainName = d.name
  problemName : p.problemName = pr.name

theorem problem_eq_ok {d : Definition.Domain} {pr : Definition.Problem} {p : LiftedProblem} :
    problem d pr s = .ok (p, s') ↔ p.symbols = s' ∧ ∃ s₁ s₂, Parts d pr s s₁ s₂ p := by
  constructor
  · intro h
    obtain ⟨_, s₁, hdeclared, h⟩ := bind_eq_ok.mp h
    obtain ⟨actions, s₂, hactions, h⟩ := bind_eq_ok.mp h
    obtain ⟨methods, s₃, hmethods, h⟩ := bind_eq_ok.mp h
    obtain ⟨_, _, hget, h⟩ := bind_eq_ok.mp h
    obtain ⟨rfl, rfl⟩ := get_eq_ok.mp hget
    obtain ⟨init, _, hinit, h⟩ := bind_eq_ok.mp h
    obtain ⟨hinit', rfl⟩ := lift_eq_ok.mp hinit
    obtain ⟨goal, _, hgoal, h⟩ := bind_eq_ok.mp h
    obtain ⟨hgoal', rfl⟩ := lift_eq_ok.mp hgoal
    obtain ⟨network, _, hnetwork, h⟩ := bind_eq_ok.mp h
    obtain ⟨hnetwork', rfl⟩ := lift_eq_ok.mp hnetwork
    obtain ⟨rfl, rfl⟩ := pure_eq_ok.mp h
    exact ⟨rfl, s₁, s₂, hdeclared, hactions, hmethods, hinit', hgoal', hnetwork', rfl, rfl⟩
  · rintro ⟨rfl, s₁, s₂, h⟩
    cases p
    obtain ⟨hdeclared, hactions, hmethods, hinit, hgoal, hnetwork, rfl, rfl⟩ := h
    exact bind_eq_ok.mpr ⟨_, _, hdeclared, bind_eq_ok.mpr ⟨_, _, hactions, bind_eq_ok.mpr ⟨_, _, hmethods,
      bind_eq_ok.mpr ⟨_, _, get_eq_ok.mpr ⟨rfl, rfl⟩, bind_eq_ok.mpr ⟨_, _, lift_eq_ok.mpr ⟨hinit, rfl⟩,
        bind_eq_ok.mpr ⟨_, _, lift_eq_ok.mpr ⟨hgoal, rfl⟩,
          bind_eq_ok.mpr ⟨_, _, lift_eq_ok.mpr ⟨hnetwork, rfl⟩, rfl⟩⟩⟩⟩⟩⟩⟩

/-- The parameters have known types, and there is a name for each. -/
structure ScopeFits (s : Symbols) (sc : Scope) : Prop where
  length : sc.names.length = sc.types.length
  types : ∀ t ∈ sc.types, t < s.types.length

theorem fits_foldlM_addParameter {ps : List Definition.Typed} {sc' : Scope} (hs : s.Settled)
    (hsc : ScopeFits s sc) (h : ps.foldlM addParameter sc s = .ok (sc', s')) :
    s.Follows s' ∧ ScopeFits s' sc' := by
  induction ps generalizing sc s with
  | nil =>
      obtain ⟨rfl, rfl⟩ := pure_eq_ok.mp h
      exact ⟨.refl s, hsc⟩
  | cons p ps ih =>
      rw [List.foldlM_cons] at h
      obtain ⟨sc₁, s₁, hp, h⟩ := bind_eq_ok.mp h
      obtain ⟨-, t, ht, rfl⟩ := addParameter_eq_ok.mp hp
      obtain ⟨hfollows, hlt⟩ := follows_type ht
      have hsc₁ : ScopeFits s₁ { sc with names := sc.names ++ [p.value], types := sc.types ++ [t] } := by
        refine ⟨by simp [hsc.length], fun u hu => ?_⟩
        rcases List.mem_append.mp hu with hu | hu
        · exact Nat.lt_of_lt_of_le (hsc.types u hu) hfollows.types
        · rw [List.mem_singleton.mp hu]
          exact hlt hs.nonempty
      obtain ⟨hrest, hfits⟩ := ih (hfollows.settled hs) hsc₁ h
      exact ⟨hfollows.trans hrest, hfits⟩

theorem fits_scope {name : String} {ps : List Definition.Typed} (hs : s.Settled)
    (h : scope name ps s = .ok (sc, s')) : s.Follows s' ∧ ScopeFits s' sc :=
  fits_foldlM_addParameter hs ⟨rfl, by simp⟩ h

/-- The name is that of a task that actions accomplish. -/
def IsPrimitive (s : Symbols) (name : String) : Prop :=
  ∃ t e, s.tasks.id? name = some t ∧ s.tasks.definition? t = some e ∧ e.primitive = true

theorem fits_action {d : Definition.Action} {a : Schema.Action} (hs : s.Settled)
    (hd : IsPrimitive s d.name) (h : action d s = .ok (a, s')) : s.Follows s' ∧ a.Fits s' := by
  obtain ⟨sc, hparts⟩ := parts_of_action h
  obtain ⟨hfollows, hfits⟩ := fits_scope hs hparts.scope
  obtain ⟨t, e, hid, he, hprimitive⟩ := hd
  rw [← hfollows.tasks] at hid he
  obtain rfl : t = a.task := Option.some.inj (hid.symm.trans hparts.task)
  have hlength : a.parameters.length = sc.names.length := by rw [hparts.parameters, hfits.length]
  refine ⟨hfollows, hparts.parameters ▸ hfits.types, ?_, ?_, ?_⟩
  · rw [hlength]
    exact Scope.fits_condition hparts.precondition
  · rw [hlength]
    exact Scope.isEffect_effects hparts.effect
  · simp [Symbols.isPrimitive, he, hprimitive]

theorem fits_method {d : Definition.Method} {m : Schema.Method} (hs : s.Settled)
    (h : method d s = .ok (m, s')) : s.Follows s' ∧ m.Fits s' := by
  obtain ⟨sc, hparts⟩ := parts_of_method h
  obtain ⟨hfollows, hfits⟩ := fits_scope hs hparts.scope
  have hlength : m.parameters.length = sc.names.length := by rw [hparts.parameters, hfits.length]
  refine ⟨hfollows, hparts.parameters ▸ hfits.types, ?_, ?_, ?_⟩
  · rw [hlength]
    exact Scope.fits_task hparts.task
  · rw [hlength]
    exact Scope.fits_condition hparts.precondition
  · rw [hlength]
    exact Scope.fits_network hparts.network

theorem nonempty_declareTypes {typed : List Definition.Typed} {u : Unit} (hs : 0 < s.types.length)
    (h : declareTypes typed s = .ok (u, s')) : 0 < s'.types.length := by
  obtain ⟨_, s₁, hnames, h⟩ := bind_eq_ok.mp h
  have hnonempty : 0 < s₁.types.length := by
    refine forM_eq_ok (P := fun s => 0 < s.types.length) (fun t _ s s' hs ht => ?_) hs hnames
    obtain rfl : (s.declareType t.value).2 = s' := congrArg Prod.snd (Except.ok.inj ht)
    exact Nat.lt_of_lt_of_le hs (Symbols.follows_declareType _ _).1.types
  refine forM_eq_ok (P := fun s => 0 < s.types.length) (fun t _ s s' hs ht => ?_) hnonempty h
  obtain ⟨sub, s₂, hsub, ht⟩ := bind_eq_ok.mp ht
  have hs₂ : (s.declareType t.value).2 = s₂ := congrArg Prod.snd (Except.ok.inj hsub)
  have hsubtype : 0 < s₂.types.length := by
    rw [← hs₂]
    exact Nat.lt_of_lt_of_le hs (Symbols.follows_declareType _ _).1.types
  refine forM_eq_ok (P := fun s => 0 < s.types.length) (fun name _ s s' hs hn => ?_) hsubtype ht
  obtain ⟨sup, s₃, hsup, hn⟩ := bind_eq_ok.mp hn
  have hs₃ : (s.declareType name).2 = s₃ := congrArg Prod.snd (Except.ok.inj hsup)
  obtain rfl : s₃.addSupertype sub sup = s' := congrArg Prod.snd (Except.ok.inj hn)
  have hname := (Symbols.follows_declareType name s).1.types
  rw [hs₃] at hname
  exact Nat.lt_of_lt_of_le hs (Nat.le_trans hname (Symbols.follows_addSupertype sub sup s₃).types)

theorem nonempty_declareConstants {typed : List Definition.Typed} {u : Unit} (hs : 0 < s.types.length)
    (h : typed.forM declareConstant s = .ok (u, s')) : 0 < s'.types.length := by
  refine forM_eq_ok (P := fun s => 0 < s.types.length) (fun t _ s s' hs ht => ?_) hs h
  obtain ⟨type, s₁, htype, ht⟩ := bind_eq_ok.mp ht
  obtain ⟨id, s₂, hid, ht⟩ := bind_eq_ok.mp ht
  obtain ⟨-, rfl⟩ := pure_eq_ok.mp ht
  exact Nat.lt_of_lt_of_le hs (Nat.le_trans (follows_type htype).1.types (Symbols.types_declareConstant hid))

theorem settled_declarePredicate {d : Definition.Predicate} {u : Unit} (hs : s.Settled)
    (h : declarePredicate d s = .ok (u, s')) : s'.Settled := by
  obtain ⟨signature, s₁, hsignature, h⟩ := bind_eq_ok.mp h
  obtain ⟨id, s₂, hid, h⟩ := bind_eq_ok.mp h
  obtain ⟨-, rfl⟩ := pure_eq_ok.mp h
  exact ((follows_types hsignature).settled hs).declarePredicate hid

theorem settled_declareTask {name : String} {ps : List Definition.Typed} {primitive : Bool} {u : Unit}
    (hs : s.Settled) (h : declareTask name ps primitive s = .ok (u, s')) : s'.Settled := by
  obtain ⟨signature, s₁, hsignature, h⟩ := bind_eq_ok.mp h
  obtain ⟨id, s₂, hid, h⟩ := bind_eq_ok.mp h
  obtain ⟨-, rfl⟩ := pure_eq_ok.mp h
  exact ((follows_types hsignature).settled hs).declareTask hid

theorem isPrimitive_declareTask {name : String} {ps : List Definition.Typed} {u : Unit}
    (h : declareTask name ps true s = .ok (u, s')) :
    IsPrimitive s' name ∧ ∀ n, IsPrimitive s n → IsPrimitive s' n := by
  obtain ⟨signature, s₁, hsignature, h⟩ := bind_eq_ok.mp h
  obtain ⟨id, s₂, hid, h⟩ := bind_eq_ok.mp h
  obtain ⟨-, rfl⟩ := pure_eq_ok.mp h
  have htasks := (follows_types hsignature).tasks
  rw [Symbols.declareTask] at hid
  cases hd : s₁.tasks.declare? name ⟨signature, true⟩ with
  | none => simp [hd] at hid
  | some r =>
      obtain ⟨i, tasks⟩ := r
      simp only [hd, Except.ok.injEq, Prod.mk.injEq] at hid
      obtain ⟨rfl, rfl⟩ := hid
      obtain ⟨hname, hdefinition, hkept⟩ := Catalog.declare?_eq_some hd
      refine ⟨⟨i, _, hname, hdefinition, rfl⟩, fun n hn => ?_⟩
      obtain ⟨t, e, ht, he, hprimitive⟩ := hn
      rw [← htasks] at ht he
      obtain ⟨ht', he'⟩ := hkept n t e ht he
      exact ⟨t, e, ht', he', hprimitive⟩

theorem isPrimitive_forM_declareTask {ds : List Definition.Action} {u : Unit}
    (h : ds.forM (fun d => declareTask d.name d.parameters true) s = .ok (u, s')) :
    (∀ n, IsPrimitive s n → IsPrimitive s' n) ∧ ∀ d ∈ ds, IsPrimitive s' d.name := by
  induction ds generalizing s with
  | nil =>
      obtain ⟨-, rfl⟩ := pure_eq_ok.mp h
      exact ⟨fun _ hn => hn, by simp⟩
  | cons d ds ih =>
      obtain ⟨_, t, hd, h⟩ := bind_eq_ok.mp h
      obtain ⟨hname, hkept⟩ := isPrimitive_declareTask hd
      obtain ⟨hkept', hrest⟩ := ih h
      exact ⟨fun n hn => hkept' n (hkept n hn), List.forall_mem_cons.mpr ⟨hkept' _ hname, hrest⟩⟩

theorem settled_declare {d : Definition.Domain} {pr : Definition.Problem} {u : Unit}
    (h : declare d pr {} = .ok (u, s')) : s'.Settled ∧ ∀ a ∈ d.actions, IsPrimitive s' a.name := by
  obtain ⟨_, s₁, htypes, h⟩ := bind_eq_ok.mp h
  obtain ⟨_, s₂, hconstants, h⟩ := bind_eq_ok.mp h
  obtain ⟨_, s₃, hobjects, h⟩ := bind_eq_ok.mp h
  obtain ⟨_, s₄, hclose, h⟩ := bind_eq_ok.mp h
  obtain ⟨_, s₅, hpredicates, h⟩ := bind_eq_ok.mp h
  obtain ⟨_, s₆, htasks, h⟩ := bind_eq_ok.mp h
  have hs₁ : 0 < s₁.types.length := nonempty_declareTypes (by decide) htypes
  have hs₃ : 0 < s₃.types.length := nonempty_declareConstants (nonempty_declareConstants hs₁ hconstants) hobjects
  have hs₄ : s₄.Settled := by
    obtain rfl : s₃.close = s₄ := congrArg Prod.snd (Except.ok.inj hclose)
    exact Symbols.settled_close hs₃
  have hs₅ : s₅.Settled := forM_eq_ok (fun _ _ _ _ hs hd => settled_declarePredicate hs hd) hs₄ hpredicates
  have hs₆ : s₆.Settled := forM_eq_ok (fun _ _ _ _ hs hd => settled_declareTask hs hd) hs₅ htasks
  exact ⟨forM_eq_ok (fun _ _ _ _ hs hd => settled_declareTask hs hd) hs₆ h, (isPrimitive_forM_declareTask h).2⟩

end Naming

namespace Naming

theorem wellFormed_problem {d : Definition.Domain} {pr : Definition.Problem} {p : LiftedProblem}
    (h : problem d pr {} = .ok (p, s')) : p.WellFormed := by
  obtain ⟨-, s₁, s₂, hparts⟩ := problem_eq_ok.mp h
  obtain ⟨hsettled, hprimitive⟩ := settled_declare hparts.declared
  obtain ⟨⟨hsettled₂, -⟩, -, hfits⟩ := mapM_eq_ok
    (P := fun s => s.Settled ∧ ∀ a ∈ d.actions, IsPrimitive s a.name) (Q := fun a s => a.Fits s)
    (fun a ha s b s' hs hb => by
      obtain ⟨hfollows, hb⟩ := fits_action hs.1 (hs.2 a ha) hb
      refine ⟨⟨hfollows.settled hs.1, fun a ha => ?_⟩, hfollows, hb⟩
      obtain ⟨t, e, hprimitive⟩ := hs.2 a ha
      exact ⟨t, e, by rwa [hfollows.tasks]⟩)
    (fun _ _ _ hfollows ha => ha.extends hfollows.toExtends) ⟨hsettled, hprimitive⟩ hparts.actions
  obtain ⟨hsettled₃, hfollows, hfits'⟩ := mapM_eq_ok (P := Symbols.Settled) (Q := fun m s => m.Fits s)
    (fun m _ s b s' hs hb => by
      obtain ⟨hfollows, hb⟩ := fits_method hs hb
      exact ⟨hfollows.settled hs, hfollows, hb⟩)
    (fun _ _ _ hfollows hm => hm.extends hfollows.toExtends) hsettled₂ hparts.methods
  exact ⟨hsettled₃, fits_initialFacts hparts.init, fun a ha => (hfits a ha).extends hfollows.toExtends, hfits',
    Scope.fits_condition hparts.goal, Scope.fits_network hparts.network⟩

end Naming

theorem LiftedProblem.wellFormed_of_ofDefinitions {domain : Option Definition.Domain}
    {problem : Option Definition.Problem} {p : LiftedProblem}
    (h : LiftedProblem.ofDefinitions domain problem = .ok p) : p.WellFormed := by
  cases domain with
  | none => simp [ofDefinitions] at h
  | some d =>
      cases problem with
      | none => simp [ofDefinitions] at h
      | some pr =>
          have hrun : Except.map (·.1) (Naming.problem d pr {}) = .ok p := h
          obtain ⟨⟨q, s'⟩, hq, rfl⟩ := Except.map_eq_ok.mp hrun
          exact Naming.wellFormed_problem hq

end HtnPlanner
