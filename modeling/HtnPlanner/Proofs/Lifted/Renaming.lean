import HtnPlanner.Proofs.Definition.Renaming
import HtnPlanner.Proofs.Grounding
import HtnPlanner.Proofs.Lifted.Acceptance

/-!
Names of variables and labels are gone once the definitions are translated: a variable is looked up among the parameters
of its operator, a label among the subtasks of its network, and what is found there is a position.
-/

namespace HtnPlanner

open Definition (Term Formula Typed Subtask)

/-! ### Work that comes out the same -/

/-- Errors that differ at most in the variable or the label that they tell of. -/
inductive GroundingError.Renamed : GroundingError → GroundingError → Prop
  | same (e : GroundingError) : Renamed e e
  | parameter (v v' : String) : Renamed (.conflict .parameter v) (.conflict .parameter v')
  | var (v v' scope : String) : Renamed (.unknownVariable v scope) (.unknownVariable v' scope)
  | label (scope l l' : String) : Renamed (.invalidOrdering scope l) (.invalidOrdering scope l')

/-- Both succeed with results that are related, or both fail. -/
inductive Matches {α β : Type} (R : α → β → Prop) : Except GroundingError α → Except GroundingError β → Prop
  | ok {a : α} {b : β} : R a b → Matches R (.ok a) (.ok b)
  | error {e e' : GroundingError} : e.Renamed e' → Matches R (.error e) (.error e')

namespace Matches

variable {α β γ δ : Type} {R : α → β → Prop} {S : γ → δ → Prop} {x : Except GroundingError α}
  {y : Except GroundingError β}

theorem refl (x : Except GroundingError α) : Matches Eq x x := by
  cases x with
  | ok a => exact .ok rfl
  | error e => exact .error (.same e)

theorem bind (h : Matches R x y) {f : α → Except GroundingError γ} {g : β → Except GroundingError δ}
    (hf : ∀ a b, R a b → Matches S (f a) (g b)) : Matches S (x >>= f) (y >>= g) := by
  cases h with
  | ok hab => exact hf _ _ hab
  | error he => exact .error he

theorem map (h : Matches R x y) {f : α → γ} {g : β → δ} (hf : ∀ a b, R a b → S (f a) (g b)) :
    Matches S (x.map f) (y.map g) := by
  cases h with
  | ok hab => exact .ok (hf _ _ hab)
  | error he => exact .error he

theorem bind_eq {y : Except GroundingError α} (h : Matches Eq x y) {f : α → Except GroundingError γ}
    {g : α → Except GroundingError δ} (hf : ∀ a, Matches S (f a) (g a)) : Matches S (x >>= f) (y >>= g) :=
  h.bind fun a _ hab => hab ▸ hf a

theorem map_eq {y : Except GroundingError α} (h : Matches Eq x y) (f : α → γ) : Matches Eq (x.map f) (y.map f) :=
  h.map fun _ _ => congrArg f

theorem mapM {f : α → Except GroundingError γ} {g : β → Except GroundingError γ} {as : List α} {bs : List β}
    (h : List.Forall₂ (fun a b => Matches Eq (f a) (g b)) as bs) : Matches Eq (as.mapM f) (bs.mapM g) := by
  induction h with
  | nil => exact .refl _
  | cons hab _ ih =>
      rw [List.mapM_cons, List.mapM_cons]
      exact hab.bind_eq fun c => ih.bind_eq fun cs => .refl _

theorem mapM_map {f : α → Except GroundingError γ} {g : β → Except GroundingError γ} {r : α → β} {as : List α}
    (h : ∀ a ∈ as, Matches Eq (f a) (g (r a))) : Matches Eq (as.mapM f) ((as.map r).mapM g) :=
  mapM (List.forall₂_map_right_iff.mpr (List.forall₂_same.mpr h))

end Matches

/-! ### Variables and labels -/

theorem idxOf?_map {ρ : String → String} (hρ : ρ.Injective) (l : List String) (a : String) :
    (l.map ρ).idxOf? (ρ a) = l.idxOf? a := by
  rw [List.idxOf?, List.idxOf?, List.findIdx?_map]
  congr 1
  funext b
  simp [hρ.eq_iff]

namespace Scope

def rename (ρ : String → String) (sc : Scope) : Scope := { sc with names := sc.names.map ρ }

section

variable {ρ : String → String} (hρ : ρ.Injective) (sc : Scope) (s : Symbols)

include hρ

theorem arg_rename (t : Term) : Matches Eq (sc.arg s t) ((sc.rename ρ).arg s (t.rename ρ)) := by
  cases t with
  | name n => exact .refl _
  | var v =>
      rw [Term.rename, arg, arg, rename, idxOf?_map hρ]
      cases sc.names.idxOf? v with
      | some i => exact .ok rfl
      | none => exact .error (.var v (ρ v) sc.name)

theorem args_rename (a : Definition.Atom Term) :
    Matches Eq (a.values.mapM (sc.arg s)) ((a.rename ρ).values.mapM ((sc.rename ρ).arg s)) :=
  .mapM_map fun t _ => arg_rename hρ sc s t

theorem atom_rename (a : Definition.Atom Term) : Matches Eq (sc.atom s a) ((sc.rename ρ).atom s (a.rename ρ)) := by
  rw [atom, atom, Definition.Atom.rename, List.length_map]
  exact (Matches.refl _).bind_eq fun q => (args_rename hρ sc s a).bind_eq fun xs => .refl _

theorem task_rename (a : Definition.Atom Term) : Matches Eq (sc.task s a) ((sc.rename ρ).task s (a.rename ρ)) := by
  rw [task, task, Definition.Atom.rename, List.length_map]
  exact (Matches.refl _).bind_eq fun q => (args_rename hρ sc s a).bind_eq fun xs => .refl _

theorem formula_rename (f : Formula) : Matches Eq (sc.formula s f) ((sc.rename ρ).formula s (f.rename ρ)) := by
  induction f using Formula.induct with
  | atom a => exact (atom_rename hρ sc s a).map_eq _
  | conj fs ih =>
      rw [Formula.rename, Formula.renameAll_eq_map, formula, formula, formulas_eq_mapM, formulas_eq_mapM]
      exact (Matches.mapM_map ih).map_eq _
  | disj fs ih =>
      rw [Formula.rename, Formula.renameAll_eq_map, formula, formula, formulas_eq_mapM, formulas_eq_mapM]
      exact (Matches.mapM_map ih).map_eq _
  | neg f ih => exact ih.map_eq _
  | imply f g ihf ihg =>
      rw [Formula.rename, formula, formula]
      exact ihf.bind_eq fun d => ihg.bind_eq fun c => .refl _
  | equal t u =>
      rw [Formula.rename, formula, formula]
      exact (arg_rename hρ sc s t).bind_eq fun x => (arg_rename hρ sc s u).bind_eq fun y => .refl _

theorem condition_rename (fs : List Formula) :
    Matches Eq (sc.condition s fs) ((sc.rename ρ).condition s (fs.map (·.rename ρ))) := by
  rw [condition, condition, formulas_eq_mapM, formulas_eq_mapM]
  exact (Matches.mapM_map fun f _ => formula_rename hρ sc s f).map_eq _

theorem effects_rename (es : List Definition.Effect) :
    Matches Eq (sc.effects s es) ((sc.rename ρ).effects s (es.map (·.rename ρ))) := by
  refine Matches.map_eq (Matches.mapM_map fun e _ => ?_) _
  cases e with
  | add a => exact (atom_rename hρ sc s a).map_eq _
  | delete a => exact (atom_rename hρ sc s a).map_eq _

end

section

variable {ρ μ : String → String} (hμ : μ.Injective) (sc : Scope) (s : Symbols) (n : Definition.Network)

include hμ

theorem position_rename (label : String) : Matches Eq (sc.position n.subtasks label)
    ((sc.rename ρ).position (n.rename ρ μ).subtasks (μ label)) := by
  have hpositions : positions (·.label == some (μ label)) (n.rename ρ μ).subtasks =
      positions (·.label == some label) n.subtasks := by
    rw [Definition.Network.rename, positions_map]
    congr 1
    funext t
    have hiff : t.label.map μ = (some label).map μ ↔ t.label = some label := (Option.map_injective hμ).eq_iff
    exact Bool.eq_iff_iff.mpr (beq_iff_eq.trans (hiff.trans beq_iff_eq.symm))
  rw [position, position, hpositions]
  cases (positions (·.label == some label) n.subtasks).getLast? with
  | some i => exact .refl _
  | none => exact .error (.label sc.name label (μ label))

theorem precedence_rename (q : String × String) : Matches Eq (sc.precedence n.subtasks q)
    ((sc.rename ρ).precedence (n.rename ρ μ).subtasks (q.map μ μ)) := by
  rw [precedence, precedence, Prod.map_fst, Prod.map_snd]
  by_cases heq : q.1 = q.2
  · rw [if_pos heq, if_pos (congrArg μ heq)]
    exact .error (.label sc.name q.1 (μ q.1))
  · rw [if_neg heq, if_neg fun h => heq (hμ h)]
    exact (position_rename hμ sc n q.1).bind_eq fun i => (position_rename hμ sc n q.2).bind_eq fun j => .refl _

theorem network_rename (hρ : ρ.Injective) :
    Matches Eq (sc.network s n) ((sc.rename ρ).network s (n.rename ρ μ)) := by
  rw [network, network]
  refine Matches.bind_eq (Matches.mapM_map fun t _ => task_rename hρ sc s t.task) fun tasks => ?_
  exact (Matches.mapM_map fun q _ => precedence_rename hμ sc n q).bind_eq fun order => .refl _

end

end Scope

/-! ### Operators -/

namespace Naming

variable {α β γ δ : Type} {R : α × Symbols → β × Symbols → Prop} {S : γ × Symbols → δ × Symbols → Prop} {s : Symbols}

theorem matches_bind {x : Naming α} {y : Naming β} {t : Symbols} (h : Matches R (x s) (y t)) {f : α → Naming γ}
    {g : β → Naming δ} (hf : ∀ r r', R r r' → Matches S (f r.1 r.2) (g r'.1 r'.2)) :
    Matches S ((x >>= f) s) ((y >>= g) t) :=
  h.bind hf

theorem matches_bind_eq {x y : Naming α} {t : Symbols} (h : Matches Eq (x s) (y t)) {f : α → Naming γ}
    {g : α → Naming δ} (hf : ∀ a s, Matches S (f a s) (g a s)) : Matches S ((x >>= f) s) ((y >>= g) t) :=
  h.bind_eq fun r => hf r.1 r.2

theorem matches_lift {x y : Except GroundingError α} (h : Matches Eq x y) :
    Matches Eq ((liftM x : Naming α) s) ((liftM y : Naming α) s) :=
  h.map_eq (·, s)

theorem matches_mapM {f : α → Naming γ} {g : β → Naming γ} {as : List α} {bs : List β}
    (h : List.Forall₂ (fun a b => ∀ s, Matches Eq (f a s) (g b s)) as bs) :
    Matches Eq (as.mapM f s) (bs.mapM g s) := by
  induction h generalizing s with
  | nil => exact .refl _
  | cons hab _ ih =>
      rw [List.mapM_cons, List.mapM_cons]
      exact matches_bind_eq (hab s) fun c s => matches_bind_eq ih fun cs s => .refl _

section

variable {ρ : String → String} (hρ : ρ.Injective)

include hρ

theorem addParameter_rename (sc : Scope) (t : Typed) :
    Matches (fun r r' => r' = (r.1.rename ρ, r.2)) (addParameter sc t s)
      (addParameter (sc.rename ρ) (t.rename ρ) s) := by
  have hmem : (t.rename ρ).value ∈ (sc.rename ρ).names ↔ t.value ∈ sc.names := List.mem_map_of_injective hρ
  rw [addParameter, addParameter]
  by_cases h : t.value ∈ sc.names
  · rw [if_pos h, if_pos (hmem.mpr h)]
    exact .error (.parameter t.value (ρ t.value))
  · rw [if_neg h, if_neg fun h' => h (hmem.mp h')]
    refine matches_bind (Matches.refl (type t.type s)) fun r _ hr => ?_
    subst hr
    refine .ok ?_
    simp [Scope.rename, Typed.rename]

theorem scope_rename (name : String) (ps : List Typed) : Matches (fun r r' => r' = (r.1.rename ρ, r.2))
    (scope name ps s) (scope name (ps.map (·.rename ρ)) s) := by
  have hfold : ∀ sc, Matches (fun r r' => r' = (r.1.rename ρ, r.2)) (ps.foldlM addParameter sc s)
      ((ps.map (·.rename ρ)).foldlM addParameter (sc.rename ρ) s) := by
    induction ps generalizing s with
    | nil => exact fun sc => .ok rfl
    | cons p ps ih =>
        intro sc
        rw [List.map_cons, List.foldlM_cons, List.foldlM_cons]
        refine matches_bind (addParameter_rename hρ sc p) fun r _ hr => ?_
        subst hr
        exact ih r.1
  exact hfold { name }

theorem action_rename (a : Definition.Action) : Matches Eq (action a s) (action (a.rename ρ) s) := by
  refine matches_bind (scope_rename hρ a.name a.parameters) fun r _ hr => ?_
  subst hr
  refine matches_bind_eq (.refl _) fun symbols s => ?_
  refine matches_bind_eq (matches_lift (Scope.condition_rename hρ r.1 symbols a.preconditions)) fun pre s => ?_
  exact matches_bind_eq (matches_lift (Scope.effects_rename hρ r.1 symbols a.effects)) fun eff s => .refl _

theorem method_rename {μ : String → String} (hμ : μ.Injective) (m : Definition.Method) :
    Matches Eq (method m s) (method (m.rename ρ μ) s) := by
  refine matches_bind (scope_rename hρ m.name m.parameters) fun r _ hr => ?_
  subst hr
  refine matches_bind_eq (.refl _) fun symbols s => ?_
  refine matches_bind_eq (matches_lift (Scope.task_rename hρ r.1 symbols m.task)) fun task s => ?_
  refine matches_bind_eq (matches_lift (Scope.condition_rename hρ r.1 symbols m.preconditions)) fun pre s => ?_
  exact matches_bind_eq (matches_lift (Scope.network_rename hμ r.1 symbols m.network hρ)) fun network s => .refl _

end

theorem declareTask_rename (ρ : String → String) (name : String) (ps : List Typed) (primitive : Bool) :
    declareTask name (ps.map (·.rename ρ)) primitive = declareTask name ps primitive := by
  rw [declareTask, declareTask, types, types, List.mapM_map]
  rfl

theorem forM_declareTask_rename {as as' : List Definition.Action} (h : List.Forall₂ Definition.Action.Renamed as as') :
    (as'.forM fun a => declareTask a.name a.parameters true) =
      as.forM fun a => declareTask a.name a.parameters true := by
  induction h with
  | nil => rfl
  | @cons a _ _ _ ha _ ih =>
      obtain ⟨ρ, -, rfl⟩ := ha
      exact congrArg₂ (fun x y => x >>= fun _ => y) (declareTask_rename ρ a.name a.parameters true) ih

variable {d d' : Definition.Domain} {p p' : Definition.Problem}

/-- Only the types of parameters are declared. -/
theorem declare_rename (hd : d.Renamed d') (hp : p.Renamed p') : declare d' p' = declare d p := by
  obtain ⟨μ, -, rfl⟩ := hp
  rw [declare, declare, forM_declareTask_rename hd.actions, hd.rest]

theorem problem_rename (hd : d.Renamed d') (hp : p.Renamed p') : Matches Eq (problem d p s) (problem d' p' s) := by
  rw [problem, problem, declare_rename hd hp]
  obtain ⟨μ, hμ, rfl⟩ := hp
  have hactions : ∀ s, Matches Eq (d.actions.mapM action s) (d'.actions.mapM action s) := fun s =>
    matches_mapM (hd.actions.imp fun a a' ⟨ρ, hρ, ha⟩ s => ha ▸ action_rename hρ a)
  have hmethods : ∀ s, Matches Eq (d.methods.mapM method s) (d'.methods.mapM method s) := fun s =>
    matches_mapM (hd.methods.imp fun m m' ⟨ρ, μ, hρ, hμ, hm⟩ s => hm ▸ method_rename hρ hμ m)
  refine matches_bind_eq (.refl _) fun _ s => ?_
  refine matches_bind_eq (hactions s) fun actions s => ?_
  refine matches_bind_eq (hmethods s) fun methods s => ?_
  refine matches_bind_eq (.refl _) fun symbols s => ?_
  refine matches_bind_eq (.refl _) fun init s => ?_
  refine matches_bind_eq (.refl _) fun goal s => ?_
  have hnetwork := Scope.network_rename hμ { name := p.name } symbols p.htn Function.injective_id
  refine matches_bind_eq (matches_lift hnetwork) fun network s => ?_
  rw [hd.rest]
  exact .refl _

end Naming

/-- Names of variables and labels do not matter. However the variables of each action and each method and the labels of
each network are renamed, as long as different ones stay different, the same encoded problem comes out, or an error
that differs at most in the name of a variable or a label. -/
theorem ground_renamed {d d' : Definition.Domain} {p p' : Definition.Problem} (hd : d.Renamed d') (hp : p.Renamed p') :
    (∀ P, ground (some d) (some p) = .ok P ↔ ground (some d') (some p') = .ok P) ∧
      ∀ e, ground (some d) (some p) = .error e → ∃ e', ground (some d') (some p') = .error e' ∧ e.Renamed e' := by
  have hlifted : Matches Eq (LiftedProblem.ofDefinitions d p) (LiftedProblem.ofDefinitions d' p') :=
    (Naming.problem_rename hd hp).map_eq (·.1)
  have hground : Matches Eq (ground (some d) (some p)) (ground (some d') (some p')) := hlifted.map_eq _
  revert hground
  generalize ground (some d) (some p) = x
  generalize ground (some d') (some p') = y
  rintro (hP | he)
  · subst hP
    exact ⟨fun P => Iff.rfl, fun e he => by cases he⟩
  · refine ⟨fun P => ⟨fun h => (by cases h), fun h => (by cases h)⟩, ?_⟩
    rintro e ⟨⟩
    exact ⟨_, rfl, he⟩

/-- One lamp after the other. The labels are those of the subtasks of a method. -/
def lampSequence : Definition.Problem :=
  { lampProblem with htn := .ordered lampProblem.htn.subtasks }

/-- The action and the methods of the lamps all call their variable by the same name. -/
theorem ground_renamed_lamp : lampDomain.Renamed lampDomain.apart ∧
    lampSequence.Renamed { lampSequence with htn := lampSequence.htn.rename id ("first " ++ ·) } ∧
    ∃ P, ground (some lampDomain) (some lampSequence) = .ok P ∧
      ground (some lampDomain.apart)
        (some { lampSequence with htn := lampSequence.htn.rename id ("first " ++ ·) }) = .ok P := by
  have hp : lampSequence.Renamed { lampSequence with htn := lampSequence.htn.rename id ("first " ++ ·) } :=
    ⟨_, fun l l' h => (String.append_right_inj _).mp h, rfl⟩
  obtain ⟨P, hP, -⟩ : ∃ P, ground (some lampDomain) (some lampSequence) = .ok P ∧ True :=
    exists_ok_of_any (by decide +kernel)
  exact ⟨lampDomain.renamed_apart, hp, P, hP, ((ground_renamed lampDomain.renamed_apart hp).1 P).mp hP⟩

end HtnPlanner
