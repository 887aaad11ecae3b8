import HtnPlanner.Ground.Methods
import HtnPlanner.Proofs.Ground.Binder
import HtnPlanner.Proofs.Lifted.Run
import HtnPlanner.Proofs.Lifted.WellFormed
import Mathlib.Data.List.Forall2

/-!
A method decomposes a task for those bindings that complete the least one with which its own task
becomes the given one.
-/

namespace HtnPlanner

variable {s : Symbols} {parameters b : List Nat} {binding binding' : List (Option Nat)}

theorem groundArgs_iff {args : List Arg} {cs : List Nat} (hlength : args.length = cs.length) :
    (args.map (Arg.subst b)).mapM Arg.const? = some cs ↔ ∀ q ∈ args.zip cs, q.1.subst b = .const q.2 := by
  induction args generalizing cs with
  | nil =>
      obtain rfl : cs = [] := by simpa using hlength.symm
      simp
  | cons x args ih =>
      cases cs with
      | nil => simp at hlength
      | cons c cs =>
          have hlength' : args.length = cs.length := by simpa using hlength
          have hrest := ih hlength'
          rw [List.zip_cons_cons, List.forall_mem_cons, ← hrest]
          simp only [List.map_cons, List.mapM_cons, Option.pure_def, Option.bind_eq_bind,
            Option.bind_eq_some_iff, Option.some.injEq, List.cons.injEq]
          constructor
          · rintro ⟨d, hd, ds, hds, rfl, rfl⟩
            exact ⟨Arg.eq_const_of_const? hd, hds⟩
          · rintro ⟨hx, hcs⟩
            exact ⟨c, by rw [hx]; rfl, cs, hcs, rfl, rfl⟩

theorem TaskRef.ground?_subst {t : TaskRef} {g : GroundTask} (hsymbol : t.symbol = g.symbol)
    (hlength : t.args.length = g.args.length) :
    (t.subst b).ground? = some g ↔ ∀ q ∈ t.args.zip g.args, q.1.subst b = .const q.2 := by
  rw [← groundArgs_iff hlength, ground?, subst, Option.map_eq_some_iff]
  constructor
  · rintro ⟨cs, hcs, rfl⟩
    exact hcs
  · exact fun h => ⟨g.args, h, by rw [hsymbol]⟩

namespace Symbols

theorem length_bindArg {q : Arg × Nat} (h : s.bindArg parameters binding q = some binding') :
    binding'.length = binding.length := by
  obtain ⟨x, v⟩ := q
  cases x with
  | const c =>
      simp only [bindArg, Option.ite_none_right_eq_some, Option.some.injEq] at h
      rw [h.2]
  | slot i =>
      simp only [bindArg] at h
      split at h <;> simp only [Option.ite_none_right_eq_some, Option.some.injEq] at h
      · rw [h.2]
      · rw [← h.2, List.length_set]

/-- Values that a slot already has are of its type. -/
def TypedBinding (s : Symbols) (parameters : List Nat) (binding : List (Option Nat)) : Prop :=
  ∀ (i c : Nat), binding[i]? = some (some c) → parameters[i]?.any (s.isOfType c) = true

theorem typedBinding_bindArg {q : Arg × Nat} (h : s.bindArg parameters binding q = some binding')
    (ht : s.TypedBinding parameters binding) : s.TypedBinding parameters binding' := by
  obtain ⟨x, v⟩ := q
  cases x with
  | const c =>
      simp only [bindArg, Option.ite_none_right_eq_some, Option.some.injEq] at h
      rwa [← h.2]
  | slot i =>
      simp only [bindArg] at h
      split at h <;> simp only [Option.ite_none_right_eq_some, Option.some.injEq] at h
      · rwa [← h.2]
      · obtain ⟨htype, rfl⟩ := h
        intro j c hj
        by_cases hij : i = j
        · subst hij
          rw [List.getElem?_set_self'] at hj
          obtain ⟨_, -, hc⟩ := Option.map_eq_some_iff.mp hj
          obtain rfl : v = c := by simpa using hc
          exact htype
        · exact ht j c (by rwa [List.getElem?_set_ne hij] at hj)

theorem subst_slot_eq_const {i v : Nat} : (Arg.slot i).subst b = .const v ↔ b[i]? = some v := by
  rw [Arg.subst]
  cases b[i]? with
  | none => simp
  | some c => simp

theorem completes_bindArg {x : Arg} {v : Nat} (hlength : binding.length = parameters.length)
    (h : s.bindArg parameters binding (x, v) = some binding') :
    Completes b binding' ↔ Completes b binding ∧ x.subst b = .const v := by
  cases x with
  | const c =>
      simp only [bindArg, Option.ite_none_right_eq_some, Option.some.injEq] at h
      rw [← h.2, h.1]
      exact (and_iff_left rfl).symm
  | slot i =>
      rw [subst_slot_eq_const]
      simp only [bindArg] at h
      split at h <;> simp only [Option.ite_none_right_eq_some, Option.some.injEq] at h
      · next bound hbound =>
          rw [← h.2]
          refine (and_iff_left_of_imp fun hb => ?_).symm
          rw [hb.values i bound (Option.join_eq_some_iff.mp hbound), h.1]
      · next hunbound =>
          obtain ⟨htype, rfl⟩ := h
          have hi : i < binding.length := by
            rw [hlength]
            by_contra hi
            rw [List.getElem?_eq_none (Nat.not_lt.mp hi)] at htype
            exact absurd htype (by simp)
          refine ⟨fun hb => ⟨hb.of_set hunbound, hb.values i v ?_⟩, fun hb => hb.1.set hb.2⟩
          rw [List.getElem?_set_self hi]

def TypedValues (s : Symbols) (parameters b : List Nat) : Prop :=
  ∀ (i c : Nat), b[i]? = some c → parameters[i]?.any (s.isOfType c) = true

theorem exists_bindArg {x : Arg} {v : Nat} (hb : Completes b binding) (ht : s.TypedValues parameters b)
    (hx : x.subst b = .const v) : ∃ binding', s.bindArg parameters binding (x, v) = some binding' := by
  cases x with
  | const c =>
      obtain rfl : c = v := Arg.const.inj hx
      exact ⟨binding, by simp [bindArg]⟩
  | slot i =>
      rw [subst_slot_eq_const] at hx
      cases hi : binding[i]?.join with
      | some bound =>
          have hbound := hb.values i bound (Option.join_eq_some_iff.mp hi)
          obtain rfl : bound = v := Option.some.inj (hbound.symm.trans hx)
          exact ⟨binding, by simp [bindArg, hi]⟩
      | none => exact ⟨binding.set i (some v), by simp only [bindArg, hi, ht i v hx, if_true]⟩

theorem foldlM_bindArg {qs : List (Arg × Nat)} (hlength : binding.length = parameters.length)
    (htyped : s.TypedBinding parameters binding)
    (h : qs.foldlM (s.bindArg parameters) binding = some binding') :
    binding'.length = parameters.length ∧ s.TypedBinding parameters binding' ∧
      ∀ b, Completes b binding' ↔ Completes b binding ∧ ∀ q ∈ qs, q.1.subst b = .const q.2 := by
  induction qs generalizing binding with
  | nil =>
      obtain rfl : binding = binding' := by simpa using h
      exact ⟨hlength, htyped, by simp⟩
  | cons q qs ih =>
      rw [List.foldlM_cons] at h
      obtain ⟨next, hnext, h⟩ := Option.bind_eq_some_iff.mp h
      obtain ⟨hlength', htyped', hcompletes⟩ :=
        ih ((length_bindArg hnext).trans hlength) (typedBinding_bindArg hnext htyped) h
      refine ⟨hlength', htyped', fun b => ?_⟩
      rw [hcompletes, completes_bindArg hlength hnext, List.forall_mem_cons, and_assoc]

theorem exists_foldlM_bindArg {qs : List (Arg × Nat)} (hlength : binding.length = parameters.length)
    (hb : Completes b binding) (ht : s.TypedValues parameters b) (hqs : ∀ q ∈ qs, q.1.subst b = .const q.2) :
    ∃ binding', qs.foldlM (s.bindArg parameters) binding = some binding' := by
  induction qs generalizing binding with
  | nil => exact ⟨binding, rfl⟩
  | cons q qs ih =>
      obtain ⟨hq, hqs⟩ := List.forall_mem_cons.mp hqs
      obtain ⟨next, hnext⟩ := exists_bindArg hb ht hq
      obtain ⟨last, hlast⟩ := ih ((length_bindArg hnext).trans hlength)
        ((completes_bindArg hlength hnext).mpr ⟨hb, hq⟩) hqs
      exact ⟨last, by rw [List.foldlM_cons, hnext]; exact hlast⟩

theorem completes_unbound : Completes b (List.replicate parameters.length none) ↔ b.length = parameters.length := by
  refine ⟨fun h => by rw [h.length, List.length_replicate], fun h => ⟨by rw [h, List.length_replicate], ?_⟩⟩
  intro i c hi
  simp [List.getElem?_replicate] at hi

theorem typedBinding_unbound : s.TypedBinding parameters (List.replicate parameters.length none) := by
  intro i c hi
  simp [List.getElem?_replicate] at hi

variable {m : Schema.Method} {t : GroundTask}

theorem unify?_spec (hsymbol : m.task.symbol = t.symbol) (hlength : m.task.args.length = t.args.length)
    (h : s.unify? m t = some binding) :
    binding.length = m.parameters.length ∧ s.TypedBinding m.parameters binding ∧
      ∀ b, Completes b binding ↔ b.length = m.parameters.length ∧ (m.task.subst b).ground? = some t := by
  obtain ⟨hbinding, htyped, hcompletes⟩ := foldlM_bindArg (List.length_replicate ..) typedBinding_unbound h
  refine ⟨hbinding, htyped, fun b => ?_⟩
  rw [hcompletes, completes_unbound, TaskRef.ground?_subst hsymbol hlength]

theorem exists_unify? (hsymbol : m.task.symbol = t.symbol) (hlength : m.task.args.length = t.args.length)
    (hb : b.length = m.parameters.length) (ht : s.TypedValues m.parameters b)
    (h : (m.task.subst b).ground? = some t) : ∃ binding, s.unify? m t = some binding :=
  exists_foldlM_bindArg (List.length_replicate ..) (completes_unbound.mpr hb) ht
    ((TaskRef.ground?_subst hsymbol hlength).mp h)

end Symbols

/-! ### Values of the right types -/

namespace LiftedProblem

variable {p : LiftedProblem}

theorem accepts_iff {args : List Nat} : p.Accepts parameters args ↔
    args.length = parameters.length ∧
      ∀ (i type : Nat), parameters[i]? = some type → ∃ c ∈ p.symbols.domain type, args[i]? = some c := by
  rw [Accepts, List.forall₂_iff_get]
  constructor
  · rintro ⟨hlength, h⟩
    refine ⟨hlength.symm, fun i type hi => ?_⟩
    obtain ⟨hlt, rfl⟩ := List.getElem?_eq_some_iff.mp hi
    exact ⟨args[i], h i hlt (by omega), List.getElem?_eq_getElem (by omega)⟩
  · rintro ⟨hlength, h⟩
    refine ⟨hlength.symm, fun i hi hi' => ?_⟩
    obtain ⟨c, hc, hget⟩ := h i _ (List.getElem?_eq_getElem hi)
    obtain ⟨_, rfl⟩ := List.getElem?_eq_some_iff.mp hget
    exact hc

section

variable (hsettled : p.symbols.Settled) (htypes : ∀ type ∈ parameters, type < p.symbols.types.length)

include hsettled htypes

theorem Accepts.typedValues (h : p.Accepts parameters b) : p.symbols.TypedValues parameters b := by
  obtain ⟨hlength, h⟩ := accepts_iff.mp h
  intro i c hi
  have hlt : i < parameters.length := by
    rw [← hlength]
    exact (List.getElem?_eq_some_iff.mp hi).1
  have htype := List.getElem?_eq_getElem hlt
  obtain ⟨d, hd, hget⟩ := h i _ htype
  obtain rfl : d = c := Option.some.inj (hget.symm.trans hi)
  rw [htype]
  exact (hsettled.domains _ (htypes _ (List.getElem_mem hlt)) d).mp hd

theorem binds_iff_accepts (hlength : binding.length = parameters.length)
    (hbinding : p.symbols.TypedBinding parameters binding) :
    Binder.Binds p.symbols.domain parameters binding b ↔ Completes b binding ∧ p.Accepts parameters b := by
  rw [accepts_iff]
  constructor
  · intro h
    refine ⟨h.toCompletes, by rw [h.length, hlength], fun i type hi => ?_⟩
    cases hb : binding[i]?.join with
    | none => exact h.typed (type, i) (List.mem_zipIdx_iff_getElem?.mpr hi) hb
    | some c =>
        have hc := Option.join_eq_some_iff.mp hb
        have htype := hbinding i c hc
        rw [hi] at htype
        exact ⟨c, (hsettled.domains _ (htypes _ (List.mem_of_getElem? hi)) c).mpr htype, h.values i c hc⟩
  · rintro ⟨hb, -, h⟩
    exact ⟨hb, fun q hq _ => h q.2 q.1 (List.mem_zipIdx_iff_getElem?.mp hq)⟩

theorem Accepts.lt_size (h : p.Accepts parameters b) : ∀ c ∈ b, c < p.symbols.constants.size := by
  intro c hc
  obtain ⟨i, hi⟩ := List.mem_iff_getElem?.mp hc
  have htype := h.typedValues hsettled htypes i c hi
  cases hp : parameters[i]? with
  | none => simp [hp] at htype
  | some type =>
      rw [hp] at htype
      exact Symbols.lt_size_of_isOfType htype

end

end LiftedProblem

end HtnPlanner
